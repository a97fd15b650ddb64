/-
  Translator/CallWhitespace.lean --- white space that LogQL does not care about.

  Source: NormalizeCallWhitespace in internal/translator/translator.go.

  Runs of white space outside quotes become one space, and none next to brackets and between the
  name of a call and its parenthesis.
-/
import LokiVlProxy.Logql.TokenBoundary
import LokiVlProxy.Translator.LabelFilterStage

namespace LokiVlProxy.Translator

open Foundation List Option
open Logql.Syntax

/-! ## The normaliser -/

def isLogQLSpace (r : Rune) : Bool := r.is fun c => c = ' ' || c = '\t' || c = '\n' || c = '\r'

/-- `isLogQLIdentByte`; the class is the one of words in regular expressions. -/
def isLogQLIdentByte (r : Rune) : Bool := reWord r

def logqlCallNames : List Runes :=
  [literal "sum", literal "avg", literal "min", literal "max", literal "count", literal "stddev",
    literal "stdvar", literal "topk", literal "bottomk", literal "sort", literal "sort_desc",
    literal "group", literal "count_values", literal "quantile", literal "approx_topk",
    literal "rate", literal "rate_counter", literal "count_over_time", literal "bytes_rate",
    literal "bytes_over_time", literal "sum_over_time", literal "avg_over_time",
    literal "max_over_time", literal "min_over_time", literal "first_over_time",
    literal "last_over_time", literal "stdvar_over_time", literal "stddev_over_time",
    literal "quantile_over_time", literal "absent_over_time", literal "label_replace",
    literal "vector", literal "absent", literal "abs", literal "ceil", literal "floor",
    literal "round", literal "exp", literal "ln", literal "log2", literal "log10", literal "sqrt"]

/-- The quoted text behind an opening quote, up to a quote with no backslash before it, and what
is behind it; the second argument is the rune before. -/
def quotedSpan (q : Rune) : Rune → Runes → Runes × Runes
  | _, [] => ([], [])
  | before, r :: s =>
      if r = q ∧ (q = .point '\x60' ∨ before ≠ .point '\\') then ([r], s)
      else
        let (span, rest) := quotedSpan q r s
        (r :: span, rest)

/-- White space next to a bracket: the last rune that was written, and the text behind. -/
def Hugs (prev : Option Rune) (rest : Runes) : Prop :=
  prev = some (.point '(') ∨ prev = some (.point '[') ∨ rest.head? = some (.point ')') ∨
    rest.head? = some (.point ']')
  deriving Decidable

/-- The loop of `NormalizeCallWhitespace`, with the last rune that was written; each round takes a
rune.  Behind a name no byte of a name stands, so the look at the byte before one is left out. -/
def normalizeFrom : Nat → Option Rune → Runes → Runes
  | 0, _, _ => []
  | _ + 1, _, [] => []
  | fuel + 1, prev, r :: s =>
      if r = .point '"' ∨ r = .point '\x60' then
        let (span, rest) := quotedSpan r r s
        r :: (span ++ normalizeFrom fuel (r :: span).getLast? rest)
      else if isLogQLSpace r then
        let rest := s.dropWhile isLogQLSpace
        if Hugs prev rest then normalizeFrom fuel prev rest
        else .point ' ' :: normalizeFrom fuel (some (.point ' ')) rest
      else if isLogQLIdentByte r then
        let name := r :: s.takeWhile isLogQLIdentByte
        let behind := s.dropWhile isLogQLIdentByte
        let rest := behind.dropWhile isLogQLSpace
        if rest.length < behind.length ∧ rest.head? = some (.point '(') ∧ name ∈ logqlCallNames then
          name ++ normalizeFrom fuel name.getLast? rest
        else name ++ normalizeFrom fuel name.getLast? behind
      else r :: normalizeFrom fuel (some r) s

def normalizeCallWhitespace (logql : Runes) : Runes := normalizeFrom logql.length none logql

/-! ## What a round does -/

/-- White space that a round takes as a whole. -/
structure IsRun (g rest : Runes) : Prop where
  ne_nil : g ≠ []
  space : ∀ r ∈ g, isLogQLSpace r = true
  ends : ∀ r ∈ rest.head?, isLogQLSpace r = false

/-- A name that a round takes as a whole. -/
structure IsWord (name rest : Runes) : Prop where
  ne_nil : name ≠ []
  ident : ∀ r ∈ name, isLogQLIdentByte r = true
  ends : ∀ r ∈ rest.head?, isLogQLIdentByte r = false

/-- A call whose parenthesis does not follow its name at once. -/
def IsSpacedCall (name behind : Runes) : Prop :=
  (behind.dropWhile isLogQLSpace).length < behind.length ∧
    (behind.dropWhile isLogQLSpace).head? = some (.point '(') ∧ name ∈ logqlCallNames

/-- The rounds of the normaliser. -/
inductive Normalized : Option Rune → Runes → Runes → Prop where
  | nil {prev : Option Rune} : Normalized prev [] []
  | quoted {prev : Option Rune} {q : Rune} {s span rest out : Runes} (hq : openQuote q = some q)
      (hspan : quotedSpan q q s = (span, rest)) (h : Normalized (q :: span).getLast? rest out) :
      Normalized prev (q :: s) (q :: (span ++ out))
  | dropped {prev : Option Rune} {g rest out : Runes} (hg : IsRun g rest) (hhugs : Hugs prev rest)
      (h : Normalized prev rest out) : Normalized prev (g ++ rest) out
  | space {prev : Option Rune} {g rest out : Runes} (hg : IsRun g rest) (hhugs : ¬ Hugs prev rest)
      (h : Normalized (some (.point ' ')) rest out) : Normalized prev (g ++ rest) (.point ' ' :: out)
  | call {prev : Option Rune} {name behind out : Runes} (hname : IsWord name behind)
      (hcall : IsSpacedCall name behind)
      (h : Normalized name.getLast? (behind.dropWhile isLogQLSpace) out) :
      Normalized prev (name ++ behind) (name ++ out)
  | name {prev : Option Rune} {name behind out : Runes} (hname : IsWord name behind)
      (hcall : ¬ IsSpacedCall name behind) (h : Normalized name.getLast? behind out) :
      Normalized prev (name ++ behind) (name ++ out)
  | other {prev : Option Rune} {r : Rune} {s out : Runes} (hquote : openQuote r = none)
      (hspace : isLogQLSpace r = false) (hident : isLogQLIdentByte r = false)
      (h : Normalized (some r) s out) : Normalized prev (r :: s) (r :: out)

/-- The span of a quoted text and what is behind it are the text. -/
theorem quotedSpan_split (q before : Rune) (s : Runes) :
    (quotedSpan q before s).1 ++ (quotedSpan q before s).2 = s := by
  induction s generalizing before with
  | nil => rfl
  | cons r s ih =>
    rw [quotedSpan]
    split
    · rfl
    · exact congrArg (List.cons r) (ih r)

theorem length_quotedSpan (q before : Rune) (s : Runes) :
    (quotedSpan q before s).2.length ≤ s.length := by
  have hsplit := congrArg List.length (quotedSpan_split q before s)
  rw [length_append] at hsplit
  omega

theorem openQuote_cases (r : Rune) :
    (openQuote r = some r ∧ (r = .point '"' ∨ r = .point '\x60')) ∨
      (openQuote r = none ∧ ¬ (r = .point '"' ∨ r = .point '\x60')) := by
  unfold openQuote
  split
  case isTrue h => exact .inl ⟨rfl, h⟩
  case isFalse h => exact .inr ⟨rfl, h⟩

variable {r : Rune} {s g rest name behind out t body w : Runes} {prev : Option Rune}

theorem isRun_dropWhile (hr : isLogQLSpace r = true) (s : Runes) :
    IsRun (r :: s.takeWhile isLogQLSpace) (s.dropWhile isLogQLSpace) where
  ne_nil := nofun
  space := forall_mem_cons.mpr ⟨hr, fun _ hx => mem_takeWhile_imp hx⟩
  ends := head_dropWhile s

theorem isWord_dropWhile (hr : isLogQLIdentByte r = true) (s : Runes) :
    IsWord (r :: s.takeWhile isLogQLIdentByte) (s.dropWhile isLogQLIdentByte) where
  ne_nil := nofun
  ident := forall_mem_cons.mpr ⟨hr, fun _ hx => mem_takeWhile_imp hx⟩
  ends := head_dropWhile s

/-- The function makes the rounds. -/
theorem normalized_normalizeFrom {fuel : Nat} (prev : Option Rune) (hfuel : s.length ≤ fuel) :
    Normalized prev s (normalizeFrom fuel prev s) := by
  induction fuel generalizing prev s with
  | zero =>
    obtain rfl := length_eq_zero_iff.mp (Nat.le_zero.mp hfuel)
    exact .nil
  | succ fuel ih =>
    cases s with
    | nil => exact .nil
    | cons r s =>
      have hlength : s.length ≤ fuel := Nat.le_of_succ_le_succ hfuel
      rw [normalizeFrom]
      split
      case isTrue hquote =>
        refine .quoted (if_pos hquote) rfl (ih _ ((length_quotedSpan r r s).trans hlength))
      case isFalse hquote =>
        have hnone : openQuote r = none := if_neg hquote
        split
        case isTrue hspace =>
          have hrest : (s.dropWhile isLogQLSpace).length ≤ fuel :=
            (dropWhile_sublist _).length_le.trans hlength
          have hsplit : r :: s = (r :: s.takeWhile isLogQLSpace) ++ s.dropWhile isLogQLSpace := by simp
          dsimp only
          split
          case isTrue hhugs =>
            have h := Normalized.dropped (isRun_dropWhile hspace s) hhugs (ih prev hrest)
            rwa [← hsplit] at h
          case isFalse hhugs =>
            have h := Normalized.space (isRun_dropWhile hspace s) hhugs (ih _ hrest)
            rwa [← hsplit] at h
        case isFalse hspace =>
          split
          case isTrue hident =>
            have hbehind : (s.dropWhile isLogQLIdentByte).length ≤ fuel :=
              (dropWhile_sublist _).length_le.trans hlength
            have hsplit : r :: s =
                (r :: s.takeWhile isLogQLIdentByte) ++ s.dropWhile isLogQLIdentByte := by simp
            dsimp only
            split
            case isTrue hcall =>
              have h : Normalized prev _ _ := .call (isWord_dropWhile hident s) hcall
                (ih _ ((dropWhile_sublist _).length_le.trans hbehind))
              rwa [← hsplit] at h
            case isFalse hcall =>
              have h : Normalized prev _ _ := .name (isWord_dropWhile hident s) hcall (ih _ hbehind)
              rwa [← hsplit] at h
          case isFalse hident =>
            exact .other hnone (Bool.eq_false_iff.mpr hspace) (Bool.eq_false_iff.mpr hident)
              (ih _ hlength)

theorem not_quote_of_space (h : isLogQLSpace r = true) :
    ¬ (r = .point '"' ∨ r = .point '\x60') := by
  rintro (rfl | rfl) <;> cases h

theorem not_quote_of_ident (h : isLogQLIdentByte r = true) :
    ¬ (r = .point '"' ∨ r = .point '\x60') := by
  rintro (rfl | rfl) <;> cases h

theorem not_space_of_ident (h : isLogQLIdentByte r = true) : isLogQLSpace r = false := by
  refine Bool.eq_false_iff.mpr fun hspace => ?_
  cases r with
  | point c =>
    simp only [isLogQLSpace, Rune.is, Bool.or_eq_true, decide_eq_true_eq] at hspace
    obtain ((rfl | rfl) | rfl) | rfl := hspace <;> cases h
  | stray b => cases hspace

/-- What the loop does at a run of spaces. -/
theorem normalizeFrom_run (hg : IsRun g rest) (fuel : Nat) (prev : Option Rune) :
    normalizeFrom (fuel + 1) prev (g ++ rest) =
      if Hugs prev rest then normalizeFrom fuel prev rest
      else .point ' ' :: normalizeFrom fuel (some (.point ' ')) rest := by
  obtain ⟨r, g, rfl⟩ := exists_cons_of_ne_nil hg.ne_nil
  have hr := hg.space r mem_cons_self
  have hrest : (g ++ rest).dropWhile isLogQLSpace = rest :=
    dropWhile_append_of_head (fun x hx => hg.space x (mem_cons_of_mem _ hx)) hg.ends
  rw [cons_append, normalizeFrom, if_neg (not_quote_of_space hr), if_pos hr, hrest]

/-- What the loop does at a name. -/
theorem normalizeFrom_word (hname : IsWord name behind) (fuel : Nat) (prev : Option Rune)
    [Decidable (IsSpacedCall name behind)] :
    normalizeFrom (fuel + 1) prev (name ++ behind) =
      if IsSpacedCall name behind then
        name ++ normalizeFrom fuel name.getLast? (behind.dropWhile isLogQLSpace)
      else name ++ normalizeFrom fuel name.getLast? behind := by
  obtain ⟨r, name, rfl⟩ := exists_cons_of_ne_nil hname.ne_nil
  have hr := hname.ident r mem_cons_self
  have hident : ∀ x ∈ name, isLogQLIdentByte x = true := fun x hx =>
    hname.ident x (mem_cons_of_mem _ hx)
  rw [cons_append, normalizeFrom, if_neg (not_quote_of_ident hr),
    if_neg (by simp [not_space_of_ident hr]), if_pos hr, takeWhile_append_of_head hident hname.ends,
    dropWhile_append_of_head hident hname.ends]
  exact if_congr Iff.rfl rfl rfl

/-- The rounds are those of the function. -/
theorem Normalized.normalizeFrom_eq (h : Normalized prev s out) {fuel : Nat}
    (hfuel : s.length ≤ fuel) : normalizeFrom fuel prev s = out := by
  have hround : ∀ {s rest : Runes} {fuel : Nat}, s.length ≤ fuel → rest.length < s.length →
      ∃ n, fuel = n + 1 ∧ rest.length ≤ n := fun {s rest fuel} h h' => ⟨fuel - 1, by omega, by omega⟩
  have hbehind : ∀ {g : Runes}, g ≠ [] → ∀ rest : Runes, rest.length < (g ++ rest).length :=
    fun {g} hg rest => by simpa using length_pos_iff.mpr hg
  induction h generalizing fuel with
  | nil => cases fuel <;> rfl
  | @quoted prev q s span rest out hq hspan h ih =>
    have hlength : rest.length ≤ s.length := by simpa [hspan] using length_quotedSpan q q s
    obtain ⟨fuel, rfl, hrest⟩ := hround hfuel (Nat.lt_succ_of_le hlength)
    obtain ⟨-, hquote⟩ | ⟨hnone, -⟩ := openQuote_cases q
    · rw [normalizeFrom, if_pos hquote, hspan]
      exact congrArg (fun out => q :: (span ++ out)) (ih hrest)
    · rw [hnone] at hq
      cases hq
  | dropped hg hhugs h ih | space hg hhugs h ih =>
    obtain ⟨fuel, rfl, hrest⟩ := hround hfuel (hbehind hg.ne_nil _)
    simp only [normalizeFrom_run hg, hhugs, if_true, if_false, ih hrest]
  | call hname hcall h ih =>
    classical
    obtain ⟨fuel, rfl, hrest⟩ := hround hfuel (hbehind hname.ne_nil _)
    rw [normalizeFrom_word hname, if_pos hcall, ih ((dropWhile_sublist _).length_le.trans hrest)]
  | name hname hcall h ih =>
    classical
    obtain ⟨fuel, rfl, hrest⟩ := hround hfuel (hbehind hname.ne_nil _)
    rw [normalizeFrom_word hname, if_neg hcall, ih hrest]
  | @other prev r s out hquote hspace hident h ih =>
    obtain ⟨fuel, rfl, hrest⟩ := hround hfuel (Nat.lt_succ_self _)
    obtain ⟨hsome, -⟩ | ⟨-, hno⟩ := openQuote_cases r
    · rw [hsome] at hquote
      cases hquote
    · rw [normalizeFrom, if_neg hno, if_neg (by simp [hspace]), if_neg (by simp [hident]), ih hrest]

/-! ## A second pass changes nothing -/

theorem Normalized.eq_nil (h : Normalized prev [] out) : out = [] :=
  (h.normalizeFrom_eq (Nat.zero_le 0)).symm

/-- The output starts as a text does that starts with no space. -/
theorem Normalized.head (h : Normalized prev s out) (hs : ∀ r ∈ s.head?, isLogQLSpace r = false) :
    out.head? = s.head? := by
  have hrun : ∀ {g rest : Runes}, IsRun g rest → (∀ r ∈ (g ++ rest).head?, isLogQLSpace r = false) →
      False := by
    intro g rest hg hs
    obtain ⟨r, g, rfl⟩ := exists_cons_of_ne_nil hg.ne_nil
    have hr := hg.space r mem_cons_self
    rw [hs r rfl] at hr
    cases hr
  cases h with
  | nil | quoted => rfl
  | dropped hg | space hg => exact (hrun hg hs).elim
  | call hname | name hname =>
    rw [head?_append_of_ne_nil _ hname.ne_nil, head?_append_of_ne_nil _ hname.ne_nil]
  | other => rfl

/-- A quoted span ends at the same quote when only the text behind it changes. -/
theorem quotedSpan_append {q before : Rune} {span : Runes}
    (h : quotedSpan q before s = (span, rest)) (hout : rest = [] → out = []) :
    quotedSpan q before (span ++ out) = (span, out) := by
  induction s generalizing before span with
  | nil =>
    obtain ⟨rfl, rfl⟩ := Prod.mk.inj h
    rw [hout rfl]
    rfl
  | cons r s ih =>
    rw [quotedSpan] at h
    split at h
    case isTrue hclose =>
      obtain ⟨rfl, rfl⟩ := Prod.mk.inj h
      rw [singleton_append, quotedSpan, if_pos hclose]
    case isFalse hopen =>
      obtain ⟨rfl, rfl⟩ := Prod.mk.inj h
      rw [cons_append, quotedSpan, if_neg hopen, ih rfl]

theorem not_hugs_of_head (hhead : t.head? = s.head?) (h : ¬ Hugs prev s) : ¬ Hugs prev t := by
  unfold Hugs at h ⊢
  rwa [hhead]

theorem not_spacedCall_of_head (h : ∀ r ∈ s.head?, isLogQLSpace r = false) :
    ¬ IsSpacedCall name s := by
  have hdrop : s.dropWhile isLogQLSpace = s := dropWhile_append_of_head (w := []) nofun h
  intro hcall
  exact absurd hcall.1 (by rw [hdrop]; exact lt_irrefl _)

theorem IsWord.last (h : IsWord name rest) :
    ∃ r, name.getLast? = some r ∧ isLogQLIdentByte r = true := by
  obtain ⟨r, hr⟩ := isSome_iff_exists.mp (getLast?_isSome.mpr h.ne_nil)
  exact ⟨r, hr, h.ident r (mem_of_getLast? hr)⟩

theorem IsWord.head_not_space (h : IsWord name rest) :
    ∀ r ∈ (name ++ rest).head?, isLogQLSpace r = false := by
  intro r hr
  rw [head?_append_of_ne_nil _ h.ne_nil] at hr
  exact not_space_of_ident (h.ident r (mem_of_head? hr))

theorem IsWord.hugs (h : IsWord name behind) (hhugs : Hugs name.getLast? rest) :
    rest.head? = some (.point ')') ∨ rest.head? = some (.point ']') := by
  obtain ⟨r, hr, hident⟩ := h.last
  rw [hr] at hhugs
  obtain hopen | hopen | hclose := hhugs
  · cases some.inj hopen
    cases hident
  · cases some.inj hopen
    cases hident
  · exact hclose

/-- What stands behind a name is no longer a call with white space, and no part of the name. -/
theorem IsWord.again (hname : IsWord name behind) (hcall : ¬ IsSpacedCall name behind)
    (h : Normalized name.getLast? behind out) : IsWord name out ∧ ¬ IsSpacedCall name out := by
  have hkept : (∀ r ∈ behind.head?, isLogQLSpace r = false) →
      IsWord name out ∧ ¬ IsSpacedCall name out := by
    intro hspace
    have hhead := h.head hspace
    exact ⟨⟨hname.ne_nil, hname.ident, hhead ▸ hname.ends⟩, not_spacedCall_of_head (hhead ▸ hspace)⟩
  cases h with
  | nil => exact hkept nofun
  | quoted hq _ _ =>
    refine hkept fun r hr => ?_
    obtain rfl := some.inj hr
    exact Bool.eq_false_iff.mpr fun hspace => by
      obtain ⟨-, h⟩ | ⟨hnone, -⟩ := openQuote_cases _
      · exact not_quote_of_space hspace h
      · rw [hnone] at hq; cases hq
  | dropped hg hhugs h =>
    have hhead := h.head hg.ends
    have hclose := hname.hugs hhugs
    rw [← hhead] at hclose
    refine ⟨⟨hname.ne_nil, hname.ident, fun r hr => ?_⟩, not_spacedCall_of_head fun r hr => ?_⟩
    all_goals
      rw [mem_def] at hr
      rw [hr, some.injEq, some.injEq] at hclose
      obtain rfl | rfl := hclose <;> rfl
  | @space _ g rest out hg hhugs h =>
    have hhead := h.head hg.ends
    refine ⟨⟨hname.ne_nil, hname.ident, by rintro r ⟨⟩; rfl⟩, fun hspaced => hcall ?_⟩
    have hout : (.point ' ' :: out).dropWhile isLogQLSpace = out :=
      dropWhile_append_of_head (w := [.point ' ']) (by rintro r ⟨⟩ <;> [rfl; contradiction])
        (hhead ▸ hg.ends)
    have hrest : (g ++ rest).dropWhile isLogQLSpace = rest := dropWhile_append_of_head hg.space hg.ends
    refine ⟨?_, ?_, hspaced.2.2⟩
    · rw [hrest, length_append]
      exact Nat.lt_add_of_pos_left (length_pos_iff.mpr hg.ne_nil)
    · rw [hrest, ← hhead, ← hout]
      exact hspaced.2.1
  | call hword | name hword => exact hkept hword.head_not_space
  | other hquote hspace => exact hkept (by rintro r ⟨⟩; exact hspace)

/-- An output of the loop is left as it is by the loop. -/
theorem Normalized.again (h : Normalized prev s out) : Normalized prev out out := by
  induction h with
  | nil => exact .nil
  | quoted hq hspan h ih =>
    exact .quoted hq (quotedSpan_append hspan fun hrest => (hrest ▸ h).eq_nil) ih
  | dropped _ _ _ ih => exact ih
  | @space prev g rest out hg hhugs h ih =>
    have hhead := h.head hg.ends
    have hrun : IsRun [.point ' '] out :=
      ⟨nofun, by rintro r ⟨⟩ <;> [rfl; contradiction], hhead ▸ hg.ends⟩
    exact .space hrun (not_hugs_of_head hhead hhugs) ih
  | @call prev name behind out hname hcall h ih =>
    have hhead := (h.head (head_dropWhile behind)).trans hcall.2.1
    refine .name ⟨hname.ne_nil, hname.ident, ?_⟩ (not_spacedCall_of_head ?_) ih
    all_goals
      rw [hhead]
      rintro r ⟨⟩
      rfl
  | name hname hcall h ih =>
    obtain ⟨hword, hnot⟩ := hname.again hcall h
    exact .name hword hnot ih
  | other hquote hspace hident _ ih => exact .other hquote hspace hident ih

/-- Normalising twice is normalising once. -/
theorem normalizeCallWhitespace_again (logql : Runes) :
    normalizeCallWhitespace (normalizeCallWhitespace logql) = normalizeCallWhitespace logql :=
  (normalized_normalizeFrom none le_rfl).again.normalizeFrom_eq le_rfl

/-! ## Texts that differ in white space -/

/-- A text of plain runes and literals, where no literal in double quotes ends in a backslash. -/
inductive PlainLiterals : Runes → Prop where
  | nil : PlainLiterals []
  | plain {r : Rune} {s : Runes} (hquote : openQuote r = none) (h : PlainLiterals s) :
      PlainLiterals (r :: s)
  | double {body s : Runes} (hbody : quotedBody (.point '"') body = true)
      (hlast : body.getLast? ≠ some (.point '\\')) (h : PlainLiterals s) :
      PlainLiterals (.point '"' :: (body ++ .point '"' :: s))
  | raw {body s : Runes} (hbody : .point '\x60' ∉ body) (h : PlainLiterals s) :
      PlainLiterals (.point '\x60' :: (body ++ .point '\x60' :: s))
  | openRaw {body : Runes} (hbody : .point '\x60' ∉ body) : PlainLiterals (.point '\x60' :: body)

/-- White space that may go: behind an opening bracket, or before a bracket. -/
def Droppable (prev : Option Rune) (rest : Runes) : Prop :=
  prev = some (.point '(') ∨ prev = some (.point '[') ∨
    ∃ r ∈ [Rune.point '(', .point ')', .point ']'], rest.head? = some r

/-- The same text with other white space outside literals, behind a rune. -/
inductive Respaced : Option Rune → Runes → Runes → Prop where
  | nil {prev : Option Rune} : Respaced prev [] []
  | keep {prev : Option Rune} {r : Rune} {s t : Runes} (hquote : openQuote r = none)
      (hspace : isLogQLSpace r = false) (h : Respaced (some r) s t) : Respaced prev (r :: s) (r :: t)
  | double {prev : Option Rune} {body s t : Runes} (hbody : quotedBody (.point '"') body = true)
      (h : Respaced (some (.point '"')) s t) :
      Respaced prev (.point '"' :: (body ++ .point '"' :: s)) (.point '"' :: (body ++ .point '"' :: t))
  | raw {prev : Option Rune} {body s t : Runes} (hbody : .point '\x60' ∉ body)
      (h : Respaced (some (.point '\x60')) s t) :
      Respaced prev (.point '\x60' :: (body ++ .point '\x60' :: s))
        (.point '\x60' :: (body ++ .point '\x60' :: t))
  | openRaw {prev : Option Rune} {body : Runes} (hbody : .point '\x60' ∉ body) :
      Respaced prev (.point '\x60' :: body) (.point '\x60' :: body)
  | dropped {prev : Option Rune} {g s t : Runes} (hg : IsRun g s) (hdrop : Droppable prev s)
      (h : Respaced prev s t) : Respaced prev (g ++ s) t
  | space {prev : Option Rune} {g s t : Runes} (hg : IsRun g s)
      (h : Respaced (some (.point ' ')) s t) : Respaced prev (g ++ s) (.point ' ' :: t)

/-- The loop takes a double-quoted text to its closing quote. -/
theorem quotedSpan_double (hbody : quotedBody (.point '"') body = true) (before : Rune)
    (hlast : (before :: body).getLast? ≠ some (.point '\\')) (s : Runes) :
    quotedSpan (.point '"') before (body ++ .point '"' :: s) = (body ++ [.point '"'], s) := by
  have hq : Rune.point '"' ≠ .point '\x60' := by decide
  revert before
  refine quotedBody_induction hbody ?_ ?_ ?_
  · intro before hlast
    rw [nil_append, quotedSpan, if_pos ⟨rfl, .inr fun h => hlast (by rw [h]; rfl)⟩]
    rfl
  · intro r rest ih before hlast
    have hslash : Rune.point '\\' ≠ .point '"' := by decide
    rw [getLast?_cons_cons, getLast?_cons_cons] at hlast
    rw [cons_append, cons_append, quotedSpan, if_neg fun h => hslash h.1, quotedSpan,
      if_neg fun h => h.2.elim hq fun h => h rfl, ih r hlast]
    rfl
  · intro r rest hne _ ih before hlast
    rw [getLast?_cons_cons] at hlast
    rw [cons_append, quotedSpan, if_neg fun h => hne h.1, ih r hlast]
    rfl

/-- The loop takes a raw string to its closing backquote. -/
theorem quotedSpan_raw (hbody : .point '\x60' ∉ body) (before : Rune) (s : Runes) :
    quotedSpan (.point '\x60') before (body ++ .point '\x60' :: s) = (body ++ [.point '\x60'], s) := by
  induction body generalizing before with
  | nil => rw [nil_append, quotedSpan, if_pos ⟨rfl, .inl rfl⟩]; rfl
  | cons r body ih =>
    rw [mem_cons, not_or] at hbody
    rw [cons_append, quotedSpan, if_neg fun h => hbody.1 h.1.symm, ih hbody.2]
    rfl

theorem quotedSpan_openRaw (hbody : .point '\x60' ∉ body) (before : Rune) :
    quotedSpan (.point '\x60') before body = (body, []) := by
  induction body generalizing before with
  | nil => rfl
  | cons r body ih =>
    rw [mem_cons, not_or] at hbody
    rw [quotedSpan, if_neg fun h => hbody.1 h.1.symm, ih hbody.2]

theorem PlainLiterals.of_append (hw : ∀ r ∈ w, openQuote r = none) (h : PlainLiterals (w ++ s)) :
    PlainLiterals s := by
  induction w with
  | nil => exact h
  | cons r w ih =>
    rw [forall_mem_cons] at hw
    rw [cons_append] at h
    generalize hrest : w ++ s = rest at h
    cases h with
    | plain _ h => exact ih hw.2 (hrest ▸ h)
    | double | raw | openRaw => cases hw.1

theorem Respaced.keep_word (hname : ∀ r ∈ name, isLogQLIdentByte r = true) (hne : name ≠ [])
    (h : Respaced name.getLast? s t) : Respaced prev (name ++ s) (name ++ t) := by
  induction name generalizing prev with
  | nil => exact absurd rfl hne
  | cons r name ih =>
    rw [forall_mem_cons] at hname
    have hquote : openQuote r = none := if_neg (not_quote_of_ident hname.1)
    refine .keep hquote (not_space_of_ident hname.1) ?_
    cases name with
    | nil => exact h
    | cons next name =>
      rw [getLast?_cons_cons] at h
      exact ih hname.2 nofun h

theorem openQuote_of_space (h : isLogQLSpace r = true) : openQuote r = none :=
  if_neg (not_quote_of_space h)

theorem openQuote_of_ident (h : isLogQLIdentByte r = true) : openQuote r = none :=
  if_neg (not_quote_of_ident h)

/-- Outside literals that end in a backslash the normaliser changes white space only. -/
theorem Normalized.respaced (h : Normalized prev s out) (hs : PlainLiterals s) :
    Respaced prev s out := by
  induction h with
  | nil => exact .nil
  | @quoted prev q s span rest out hq hspan h ih =>
    cases hs with
    | plain hquote => rw [hq] at hquote; cases hquote
    | @double body s hbody hlast hs =>
      have hlast' : (Rune.point '"' :: body).getLast? ≠ some (.point '\\') := by
        cases body with
        | nil => decide
        | cons r body => rwa [getLast?_cons_cons]
      rw [quotedSpan_double hbody _ hlast'] at hspan
      obtain ⟨rfl, rfl⟩ := Prod.mk.inj hspan
      rw [← cons_append, getLast?_concat] at ih
      have hdouble : Respaced prev _ _ := .double hbody (ih hs)
      simpa using hdouble
    | @raw body s hbody hs =>
      rw [quotedSpan_raw hbody] at hspan
      obtain ⟨rfl, rfl⟩ := Prod.mk.inj hspan
      rw [← cons_append, getLast?_concat] at ih
      have hraw : Respaced prev _ _ := .raw hbody (ih hs)
      simpa using hraw
    | openRaw hbody =>
      rw [quotedSpan_openRaw hbody] at hspan
      obtain ⟨rfl, rfl⟩ := Prod.mk.inj hspan
      rw [h.eq_nil, append_nil]
      exact .openRaw hbody
  | dropped hg hhugs _ ih =>
    refine .dropped hg ?_ (ih (hs.of_append fun r hr => openQuote_of_space (hg.space r hr)))
    obtain h | h | h | h := hhugs
    · exact .inl h
    · exact .inr (.inl h)
    all_goals exact .inr (.inr ⟨_, by simp, h⟩)
  | space hg _ _ ih => exact .space hg (ih (hs.of_append fun r hr => openQuote_of_space (hg.space r hr)))
  | @call prev name behind out hname hcall _ ih =>
    have hbehind := hs.of_append fun r hr => openQuote_of_ident (hname.ident r hr)
    refine Respaced.keep_word hname.ident hname.ne_nil ?_
    have hsplit : behind.takeWhile isLogQLSpace ++ behind.dropWhile isLogQLSpace = behind :=
      takeWhile_append_dropWhile
    have hspace : ∀ r ∈ behind.takeWhile isLogQLSpace, isLogQLSpace r = true := fun r hr =>
      mem_takeWhile_imp hr
    have hg : IsRun (behind.takeWhile isLogQLSpace) (behind.dropWhile isLogQLSpace) := by
      refine ⟨fun hnil => ?_, hspace, head_dropWhile behind⟩
      rw [hnil, nil_append] at hsplit
      exact absurd hcall.1 (by rw [hsplit]; exact lt_irrefl _)
    rw [← hsplit] at hbehind
    have hrest := ih (hbehind.of_append fun r hr => openQuote_of_space (hspace r hr))
    have hdropped := Respaced.dropped hg (.inr (.inr ⟨_, by simp, hcall.2.1⟩)) hrest
    rwa [hsplit] at hdropped
  | name hname _ _ ih =>
    have hbehind := hs.of_append fun r hr => openQuote_of_ident (hname.ident r hr)
    exact Respaced.keep_word hname.ident hname.ne_nil (ih hbehind)
  | other hquote hspace _ _ ih =>
    cases hs with
    | plain _ hs => exact .keep hquote hspace (ih hs)
    | double | raw | openRaw => cases hquote

/-! ## The tokens of a respaced text -/

theorem Respaced.eq_nil (h : Respaced prev [] t) : t = [] := by
  generalize hs : ([] : Runes) = s at h
  induction h with
  | nil => rfl
  | keep | double | raw | openRaw => cases hs
  | dropped hg | space hg => exact absurd (append_eq_nil_iff.mp hs.symm).1 hg.ne_nil

theorem run_ne_cons {x : Runes} (hg : IsRun g s) (hr : isLogQLSpace r = false) :
    g ++ s ≠ r :: x := by
  intro h
  obtain ⟨first, g, rfl⟩ := exists_cons_of_ne_nil hg.ne_nil
  obtain ⟨rfl, -⟩ := cons.inj h
  rw [hg.space _ mem_cons_self] at hr
  cases hr

/-- A rune that is no space and opens no quotes stays. -/
theorem Respaced.cons (h : Respaced prev (r :: s) t) (hquote : openQuote r = none)
    (hspace : isLogQLSpace r = false) : ∃ t', t = r :: t' ∧ Respaced (some r) s t' := by
  generalize hs : r :: s = x at h
  cases h with
  | nil => cases hs
  | keep _ _ h =>
    obtain ⟨rfl, rfl⟩ := cons.inj hs
    exact ⟨_, rfl, h⟩
  | double | raw | openRaw =>
    obtain ⟨rfl, -⟩ := cons.inj hs
    cases hquote
  | dropped hg | space hg => exact absurd hs.symm (run_ne_cons hg hspace)

/-- So does a whole word of such runes. -/
theorem Respaced.word (hne : w ≠ []) (hw : ∀ r ∈ w, openQuote r = none ∧ isLogQLSpace r = false)
    (h : Respaced prev (w ++ s) t) : ∃ t', t = w ++ t' ∧ Respaced w.getLast? s t' := by
  induction w generalizing prev t with
  | nil => exact absurd rfl hne
  | cons r w ih =>
    rw [forall_mem_cons] at hw
    obtain ⟨t, rfl, hrest⟩ := h.cons hw.1.1 hw.1.2
    cases w with
    | nil => exact ⟨t, rfl, hrest⟩
    | cons next w =>
      obtain ⟨t', rfl, hlast⟩ := ih nofun hw.2 hrest
      exact ⟨t', rfl, by rwa [getLast?_cons_cons]⟩

/-- A double-quoted text stays. -/
theorem Respaced.quoted_double (hbody : quotedBody (.point '"') body = true)
    (h : Respaced prev (.point '"' :: (body ++ .point '"' :: s)) t) :
    ∃ t', t = .point '"' :: (body ++ .point '"' :: t') ∧ Respaced (some (.point '"')) s t' := by
  generalize hs : Rune.point '"' :: (body ++ .point '"' :: s) = x at h
  cases h with
  | nil => cases hs
  | keep hquote =>
    obtain ⟨rfl, -⟩ := cons.inj hs
    cases hquote
  | @double _ body' s' t' hbody' h =>
    have htext := (cons.inj hs).2
    have hrest := closingQuote_body hbody' s'
    rw [← htext, closingQuote_body hbody] at hrest
    obtain rfl := some.inj hrest
    obtain rfl := append_cancel_right htext
    exact ⟨t', rfl, h⟩
  | raw | openRaw => cases (cons.inj hs).1
  | dropped hg | space hg => exact absurd hs.symm (run_ne_cons hg rfl)

/-- A raw string stays. -/
theorem Respaced.quoted_raw (hbody : .point '\x60' ∉ body)
    (h : Respaced prev (.point '\x60' :: (body ++ .point '\x60' :: s)) t) :
    ∃ t', t = .point '\x60' :: (body ++ .point '\x60' :: t') ∧ Respaced (some (.point '\x60')) s t' := by
  generalize hs : Rune.point '\x60' :: (body ++ .point '\x60' :: s) = x at h
  cases h with
  | nil => cases hs
  | keep hquote =>
    obtain ⟨rfl, -⟩ := cons.inj hs
    cases hquote
  | double => cases (cons.inj hs).1
  | @raw _ body' s' t' hbody' h =>
    have hrest := congrArg (scanRawString ·) (cons.inj hs).2
    rw [scanRawString_closed hbody, scanRawString_closed hbody'] at hrest
    obtain ⟨htok, rfl⟩ := Prod.mk.inj hrest
    obtain ⟨-, rfl⟩ := Token.mk.inj htok
    exact ⟨t', rfl, h⟩
  | openRaw hbody' => exact absurd ((cons.inj hs).2 ▸ by simp) hbody'
  | dropped hg | space hg => exact absurd hs.symm (run_ne_cons hg rfl)

theorem Respaced.quoted_openRaw (hbody : .point '\x60' ∉ body)
    (h : Respaced prev (.point '\x60' :: body) t) : t = .point '\x60' :: body := by
  generalize hs : Rune.point '\x60' :: body = x at h
  cases h with
  | nil => cases hs
  | keep hquote =>
    obtain ⟨rfl, -⟩ := cons.inj hs
    cases hquote
  | double => cases (cons.inj hs).1
  | raw => exact absurd ((cons.inj hs).2 ▸ by simp) hbody
  | openRaw => rfl
  | dropped hg | space hg => exact absurd hs.symm (run_ne_cons hg rfl)

/-- Behind a rune that opens no bracket, what follows starts as before or with a separator. -/
theorem Respaced.replaces {r : Rune} {s t : Runes} (h : Respaced (some r) s t)
    (hr : r ≠ .point '(' ∧ r ≠ .point '[') : Replaces s t := by
  cases h with
  | nil | keep | double | raw | openRaw => exact .inl rfl
  | dropped hg hdrop h =>
    obtain h' | h' | ⟨c, hc, hhead⟩ := hdrop
    · exact absurd (some.inj h') hr.1
    · exact absurd (some.inj h') hr.2
    · obtain ⟨s', rfl⟩ := head?_eq_some_iff.mp hhead
      have hplain : openQuote c = none ∧ isLogQLSpace c = false ∧ c ∈ separators := by
        simp only [mem_cons, not_mem_nil, or_false] at hc
        obtain rfl | rfl | rfl := hc <;> exact ⟨rfl, rfl, by decide⟩
      obtain ⟨t', rfl, -⟩ := h.cons hplain.1 hplain.2.1
      exact .inr fun x hx => some.inj hx ▸ hplain.2.2
  | space => exact .inr fun x hx => some.inj hx ▸ by decide

theorem isSpace_of_isLogQLSpace (h : isLogQLSpace r = true) : r.is isSpace = true := by
  cases r with
  | point c =>
    simp only [isLogQLSpace, Rune.is, Bool.or_eq_true, decide_eq_true_eq] at h
    obtain ((rfl | rfl) | rfl) | rfl := h <;> rfl
  | stray b => cases h

theorem skipWS_run (hg : IsRun g s) : skipWS (g ++ s) = skipWS s :=
  dropWhile_append_of_pos fun r hr => isSpace_of_isLogQLSpace (hg.space r hr)

theorem skipWS_cons_of_not (hr : r.is isSpace = false) (s : Runes) : skipWS (r :: s) = r :: s :=
  dropWhile_cons_of_neg (by simp [hr])

/-- The two texts stay related behind their leading spaces. -/
theorem Respaced.skipped (h : Respaced prev s t) :
    ∃ prev', Respaced prev' (skipWS s) (skipWS t) := by
  induction h with
  | nil => exact ⟨none, .nil⟩
  | @keep prev r s t hquote hspace h ih =>
    cases hr : r.is isSpace with
    | true =>
      have hskip : ∀ s, skipWS (r :: s) = skipWS s := fun s =>
        dropWhile_cons_of_pos hr
      rw [hskip, hskip]
      exact ih
    | false =>
      rw [skipWS_cons_of_not hr, skipWS_cons_of_not hr]
      exact ⟨prev, .keep hquote hspace h⟩
  | @double prev body s t hbody h | @raw prev body s t hbody h =>
    rw [skipWS_cons_of_not rfl, skipWS_cons_of_not rfl]
    exact ⟨prev, by first | exact .double hbody h | exact .raw hbody h⟩
  | @openRaw prev body hbody =>
    rw [skipWS_cons_of_not rfl]
    exact ⟨prev, .openRaw hbody⟩
  | dropped hg _ _ ih | space hg _ ih =>
    rw [skipWS_run hg]
    exact ih

/-- The text of a token stays. -/
theorem Respaced.token (hw : TokenText w) (h : Respaced prev (w ++ s) t) :
    ∃ t', t = w ++ t' ∧ Respaced w.getLast? s t' := by
  cases hw with
  | word hne hplain =>
    refine h.word hne fun r hr => ⟨if_neg ?_, Bool.eq_false_iff.mpr fun hspace => ?_⟩
    · rintro (rfl | rfl)
      · exact hplain '"' (by simp) hr
      · exact hplain '\x60' (by simp) hr
    · cases r with
      | point c =>
        simp only [isLogQLSpace, Rune.is, Bool.or_eq_true, decide_eq_true_eq] at hspace
        obtain ((rfl | rfl) | rfl) | rfl := hspace
        all_goals exact hplain _ (by simp) hr
      | stray b => cases hspace
  | @double body hbody | @raw body hbody =>
    rw [cons_append, append_assoc, singleton_append] at h
    obtain ⟨t', rfl, h⟩ := by first | exact h.quoted_double hbody | exact h.quoted_raw hbody
    refine ⟨t', by simp, ?_⟩
    rwa [← cons_append, getLast?_concat]

section Tokens

variable (u : UnicodeTables) {braceDepth : Nat} {s : Runes}

/-- A text with other white space has the same tokens. -/
theorem Respaced.tokens {fuel fuel' : Nat} {prev : Option Rune} {t : Runes} (h : Respaced prev s t)
    (hs : s.length ≤ fuel) (ht : t.length ≤ fuel')
    (hok : ∀ l ∈ lexemesFrom u fuel braceDepth s, l.typ ≠ .tokError) :
    (lexemesFrom u fuel' braceDepth t).map Lexeme.tok =
      (lexemesFrom u fuel braceDepth s).map Lexeme.tok := by
  induction fuel generalizing fuel' braceDepth prev s t with
  | zero =>
    obtain rfl := length_eq_zero_iff.mp (Nat.le_zero.mp hs)
    rw [h.eq_nil]
    cases fuel' <;> rfl
  | succ fuel ih =>
    obtain ⟨prev', hskip⟩ := h.skipped
    cases hstart : skipWS s with
    | nil =>
      rw [hstart] at hskip
      have hnil : ∀ fuel s, skipWS s = [] → lexemesFrom u fuel braceDepth s = [] := by
        intro fuel s hs
        cases fuel with
        | zero => rfl
        | succ fuel => rw [lexemesFrom, hs]
      rw [hnil _ _ hstart, hnil _ _ hskip.eq_nil]
    | cons r start =>
      rw [lexemesFrom_eq_cons u hs hstart] at hok ⊢
      rw [forall_mem_cons] at hok
      rw [hstart] at hskip
      obtain ⟨rfl, hraw⟩ | ⟨w, hw, hbracket, hsplit, hlocal⟩ := scanToken_text u braceDepth r start hok.1
      · -- An open literal is the rest of both texts.
        have hstart' := hskip.quoted_openRaw hraw
        rw [lexemesFrom_eq_cons u ht hstart']
      · generalize scanToken u braceDepth (r :: start) = out at hok hsplit hlocal ⊢
        obtain ⟨tok, rest, depth⟩ := out
        dsimp only at hok hsplit hlocal ⊢
        rw [hsplit] at hskip
        obtain ⟨t', ht', hrest⟩ := hskip.token hw
        have hscan : scanToken u braceDepth (w ++ t') = (tok, t', depth) := by
          refine hlocal t' ?_
          obtain ⟨last, hlast⟩ := isSome_iff_exists.mp (getLast?_isSome.mpr hw.ne_nil)
          rw [hlast] at hrest
          by_cases hopen : last = .point '(' ∨ last = .point '['
          · have hone : w = [last] := hbracket last hlast hopen
            obtain rfl | rfl := hopen
            · exact .inr (.inl hone)
            · exact .inr (.inr hone)
          · exact .inl (hrest.replaces (not_or.mp hopen))
        obtain ⟨first, w, rfl⟩ := exists_cons_of_ne_nil hw.ne_nil
        rw [cons_append] at ht' hscan
        have hlength := length_skipWS s
        rw [hstart, hsplit, length_append, length_cons] at hlength
        have hle : rest.length ≤ fuel := by omega
        rw [lexemesFrom_eq_cons u ht ht', hscan, map_cons, map_cons,
          lexemesFrom_fuel u depth le_rfl hle]
        refine congrArg (List.cons tok) (ih hrest hle le_rfl fun l hl => hok.2 l ?_)
        rwa [lexemesFrom_fuel u depth le_rfl hle]

/-! ## The literals of a query -/

theorem PlainLiterals.append {w : Runes} (hw : ∀ r ∈ w, openQuote r = none) (h : PlainLiterals s) :
    PlainLiterals (w ++ s) := by
  induction w with
  | nil => exact h
  | cons r w ih =>
    rw [forall_mem_cons] at hw
    exact .plain hw.1 (ih hw.2)

/-- The runes a token was read from. -/
def lexemeText (l : Lexeme) : Runes :=
  l.start.take (l.start.length - l.rest.length)

/-- The token is no literal in double quotes that ends in a backslash. -/
def EndsPlain (l : Lexeme) : Prop :=
  (lexemeText l).head? = some (.point '"') →
    (lexemeText l).dropLast.getLast? ≠ some (.point '\\')
  deriving Decidable

theorem lexemeText_eq {tok : Token} {w start rest : Runes} (h : start = w ++ rest) :
    lexemeText ⟨tok, start, rest⟩ = w := by
  rw [lexemeText, h, length_append, Nat.add_sub_cancel_right, take_left]

/-- Where the scanner finds no fault, the quotes that the loop sees are those of the tokens. -/
theorem plainLiterals_of_lexemes {fuel : Nat} (hs : s.length ≤ fuel)
    (hok : ∀ l ∈ lexemesFrom u fuel braceDepth s, l.typ ≠ .tokError ∧ EndsPlain l) :
    PlainLiterals s := by
  have hgap : ∀ s, PlainLiterals (skipWS s) → PlainLiterals s := by
    intro s h
    have hsplit : s.takeWhile (Rune.is isSpace) ++ skipWS s = s := takeWhile_append_dropWhile
    rw [← hsplit]
    refine h.append fun r hr => if_neg ?_
    have hspace := mem_takeWhile_imp hr
    rintro (rfl | rfl) <;> cases hspace
  induction fuel generalizing braceDepth s with
  | zero =>
    obtain rfl := length_eq_zero_iff.mp (Nat.le_zero.mp hs)
    exact .nil
  | succ fuel ih =>
    refine hgap s ?_
    cases hstart : skipWS s with
    | nil => exact .nil
    | cons r start =>
      rw [lexemesFrom_eq_cons u hs hstart, forall_mem_cons] at hok
      obtain ⟨rfl, hraw⟩ | ⟨w, hw, -, hsplit, -⟩ := scanToken_text u braceDepth r start hok.1.1
      · exact .openRaw hraw
      · generalize scanToken u braceDepth (r :: start) = out at hok hsplit
        obtain ⟨tok, rest, depth⟩ := out
        dsimp only at hok hsplit
        have hlength := length_skipWS s
        have hne := length_pos_iff.mpr hw.ne_nil
        rw [hstart, hsplit, length_append] at hlength
        have hle : rest.length ≤ fuel := by omega
        have hrest : PlainLiterals rest := by
          refine @ih depth rest hle fun l hl => hok.2 l ?_
          rwa [lexemesFrom_fuel u depth le_rfl hle]
        have hends := hok.1.2
        rw [EndsPlain, lexemeText_eq hsplit] at hends
        rw [hsplit]
        cases hw with
        | word hne hplain =>
          refine hrest.append fun x hx => if_neg ?_
          rintro (rfl | rfl)
          · exact hplain '"' (by simp) hx
          · exact hplain '\x60' (by simp) hx
        | @double body hbody =>
          rw [cons_append, append_assoc]
          refine .double hbody (fun hlast => hends rfl ?_) hrest
          rw [← cons_append, dropLast_concat, getLast?_cons, hlast]
          rfl
        | @raw body hbody => simpa using PlainLiterals.raw hbody hrest

/-- The normaliser keeps the tokens of a query with no lexical error and no literal in double
quotes that ends in a backslash, and a second pass changes nothing. -/
theorem call_whitespace_neutral {logql : Runes}
    (hok : ∀ l ∈ lexemes u logql, l.typ ≠ .tokError) (hends : ∀ l ∈ lexemes u logql, EndsPlain l) :
    (lexemes u (normalizeCallWhitespace logql)).map Lexeme.tok = (lexemes u logql).map Lexeme.tok ∧
      normalizeCallWhitespace (normalizeCallWhitespace logql) = normalizeCallWhitespace logql := by
  have hplain : PlainLiterals logql :=
    plainLiterals_of_lexemes u le_rfl fun l hl => ⟨hok l hl, hends l hl⟩
  have hrespaced := (normalized_normalizeFrom none (le_refl logql.length)).respaced hplain
  exact ⟨hrespaced.tokens u le_rfl le_rfl hok, normalizeCallWhitespace_again logql⟩

theorem call_whitespace_neutral_rate :
    (∀ l ∈ lexemes asciiTables (literal "sum ( rate ( \x7b a=\"p  q\" \x7d [ 5m ] ) )"),
        l.typ ≠ .tokError) ∧
      normalizeCallWhitespace (literal "sum ( rate ( \x7b a=\"p  q\" \x7d [ 5m ] ) )") =
        literal "sum(rate(\x7b a=\"p  q\" \x7d [5m]))" ∧
      (lexemes asciiTables (normalizeCallWhitespace
          (literal "sum ( rate ( \x7b a=\"p  q\" \x7d [ 5m ] ) )"))).map Lexeme.tok =
        (lexemes asciiTables (literal "sum ( rate ( \x7b a=\"p  q\" \x7d [ 5m ] ) )")).map
          Lexeme.tok := by
  have hok : ∀ l ∈ lexemes asciiTables (literal "sum ( rate ( \x7b a=\"p  q\" \x7d [ 5m ] ) )"),
      l.typ ≠ .tokError := by decide +kernel
  refine ⟨hok, by decide +kernel, (call_whitespace_neutral asciiTables hok ?_).1⟩
  decide +kernel

/-- The quote behind an escaped backslash closes the literal for the lexer and not for the
normaliser, which then takes the next literal for plain text. -/
theorem literal_behind_backslash_respaced :
    (∀ l ∈ lexemes asciiTables (literal "\x7ba=\"x\\\\\", b=\"rate (\"\x7d"), l.typ ≠ .tokError) ∧
      (lexemes asciiTables (normalizeCallWhitespace
          (literal "\x7ba=\"x\\\\\", b=\"rate (\"\x7d"))).map Lexeme.tok ≠
        (lexemes asciiTables (literal "\x7ba=\"x\\\\\", b=\"rate (\"\x7d")).map Lexeme.tok := by
  decide +kernel

end Tokens

end LokiVlProxy.Translator
