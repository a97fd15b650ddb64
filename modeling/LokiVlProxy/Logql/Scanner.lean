/-
  Logql/Scanner.lean --- the tokens of a LogQL query.

  Source: internal/logql/scanner.go.

  A query is given rune by rune.
-/
import LokiVlProxy.Foundation.Quoting

namespace LokiVlProxy.Logql.Syntax

open Foundation List

inductive TokType where
  | tokEOF | tokError
  | tokLBrace | tokRBrace | tokLParen | tokRParen | tokLBracket | tokRBracket
  | tokComma | tokPipe | tokAt
  | tokEq | tokNeq | tokReMatch | tokReNotMatch
  | tokPipeEq | tokBangEq | tokPipeTilde | tokBangTilde | tokPipeGt | tokBangGt
  | tokIdent | tokString | tokRawString | tokDuration | tokNumber
  | tokPlus | tokMinus | tokStar | tokSlash | tokPercent | tokCaret
  | tokLt | tokGt | tokLtEq | tokGtEq | tokEqEq
  | tokBy | tokWithout | tokOn | tokIgnoring | tokGroupLeft | tokGroupRight
  | tokAnd | tokOr | tokUnless
  deriving DecidableEq, Repr

@[ext]
structure Token where
  typ : TokType
  val : Runes
  deriving DecidableEq, Repr

/-- A token, the text from its first rune on, and the text behind it. -/
structure Lexeme where
  tok : Token
  start : Runes
  rest : Runes
  deriving DecidableEq, Repr

namespace Lexeme

/-- The type of the token. -/
def typ (l : Lexeme) : TokType := l.tok.typ

end Lexeme

variable (u : UnicodeTables)

/-! ## Literals -/

/-- What stands behind the quote that closes a literal in double quotes. -/
def closingQuote : Runes → Option Runes
  | [] => none
  | .point '"' :: s => some s
  | .point '\\' :: [] => none
  | .point '\\' :: _ :: s => closingQuote s
  | _ :: s => closingQuote s

/-- `scanQuotedString`, behind the opening quote: the token and the text behind it. -/
def scanQuotedString (s : Runes) : Token × Runes :=
  match closingQuote s with
  | none => (⟨.tokError, literal "unterminated quoted string"⟩, [])
  | some rest =>
      let text := .point '"' :: s.take (s.length - rest.length)
      match unquote text with
      | none => (⟨.tokError, literal "invalid quoted string"⟩, rest)
      | some value =>
          if text.all Rune.isPoint then (⟨.tokString, value⟩, rest)
          else (⟨.tokError, literal "invalid quoted string"⟩, rest)

/-- `scanRawString`, behind the opening quote. -/
def scanRawString (s : Runes) : Token × Runes :=
  let val := s.takeWhile (· ≠ .point '\x60')
  (⟨.tokRawString, val⟩, (s.drop val.length).tail)

/-! ## Names and numbers -/

def identRune (r : Rune) : Bool :=
  r.is fun c => u.isLetter c || u.isDigit c || c = '_' || c = '.'

/-- The words with a token type of their own. -/
def keywords : List (Runes × TokType) :=
  [(literal "by", .tokBy), (literal "without", .tokWithout), (literal "on", .tokOn),
    (literal "ignoring", .tokIgnoring), (literal "group_left", .tokGroupLeft),
    (literal "group_right", .tokGroupRight), (literal "and", .tokAnd), (literal "or", .tokOr),
    (literal "unless", .tokUnless)]

def scanIdent (s : Runes) : Token × Runes :=
  let val := s.takeWhile (identRune u)
  (⟨(keywords.lookup val).getD .tokIdent, val⟩, s.drop val.length)

/-- The segments of a number or duration: what is left behind them, and whether one has a unit. -/
def scanSegments : Nat → Bool → Runes → Bool × Runes
  | 0, sawUnit, s => (sawUnit, s)
  | fuel + 1, sawUnit, s =>
      let digits := s.takeWhile (Rune.is fun c => u.isDigit c || c = '.')
      let s := s.drop digits.length
      let unit := s.takeWhile (Rune.is u.isLetter)
      if digits.isEmpty then (sawUnit, s)
      else if unit.isEmpty then (sawUnit, s)
      else scanSegments fuel true (s.drop unit.length)

def scanNumberOrDuration (s : Runes) : Token × Runes :=
  let (sawUnit, rest) := scanSegments u s.length false s
  (⟨if sawUnit then .tokDuration else .tokNumber, s.take (s.length - rest.length)⟩, rest)

/-! ## Tokens -/

/-- A token that is spelled out. -/
def spelled (typ : TokType) (text : String) (rest : Runes) (braceDepth : Nat) :
    Token × Runes × Nat :=
  (⟨typ, literal text⟩, rest, braceDepth)

/-- The token at a rune that is no white space, the text behind it, and the depth of braces. -/
def scanToken (braceDepth : Nat) : Runes → Token × Runes × Nat
  | [] => (⟨.tokEOF, []⟩, [], braceDepth)
  | .point '\x7b' :: s => spelled .tokLBrace "\x7b" s (braceDepth + 1)
  | .point '\x7d' :: s => spelled .tokRBrace "\x7d" s (braceDepth - 1)
  | .point '(' :: s => spelled .tokLParen "(" s braceDepth
  | .point ')' :: s => spelled .tokRParen ")" s braceDepth
  | .point '[' :: s => spelled .tokLBracket "[" s braceDepth
  | .point ']' :: s => spelled .tokRBracket "]" s braceDepth
  | .point ',' :: s => spelled .tokComma "," s braceDepth
  | .point '@' :: s => spelled .tokAt "@" s braceDepth
  | .point '|' :: .point '=' :: s => spelled .tokPipeEq "|=" s braceDepth
  | .point '|' :: .point '~' :: s => spelled .tokPipeTilde "|~" s braceDepth
  | .point '|' :: .point '>' :: s => spelled .tokPipeGt "|>" s braceDepth
  | .point '|' :: s => spelled .tokPipe "|" s braceDepth
  | .point '!' :: .point '=' :: s =>
      spelled (if 0 < braceDepth then .tokNeq else .tokBangEq) "!=" s braceDepth
  | .point '!' :: .point '~' :: s =>
      spelled (if 0 < braceDepth then .tokReNotMatch else .tokBangTilde) "!~" s braceDepth
  | .point '!' :: .point '>' :: s => spelled .tokBangGt "!>" s braceDepth
  | .point '!' :: s => spelled .tokError "!" s braceDepth
  | .point '+' :: s => spelled .tokPlus "+" s braceDepth
  | .point '-' :: s => spelled .tokMinus "-" s braceDepth
  | .point '*' :: s => spelled .tokStar "*" s braceDepth
  | .point '/' :: s => spelled .tokSlash "/" s braceDepth
  | .point '%' :: s => spelled .tokPercent "%" s braceDepth
  | .point '^' :: s => spelled .tokCaret "^" s braceDepth
  | .point '<' :: .point '=' :: s => spelled .tokLtEq "<=" s braceDepth
  | .point '<' :: s => spelled .tokLt "<" s braceDepth
  | .point '>' :: .point '=' :: s => spelled .tokGtEq ">=" s braceDepth
  | .point '>' :: s => spelled .tokGt ">" s braceDepth
  | .point '=' :: .point '~' :: s => spelled .tokReMatch "=~" s braceDepth
  | .point '=' :: .point '=' :: s => spelled .tokEqEq "==" s braceDepth
  | .point '=' :: s => spelled .tokEq "=" s braceDepth
  | .point '"' :: s => let (tok, rest) := scanQuotedString s; (tok, rest, braceDepth)
  | .point '\x60' :: s => let (tok, rest) := scanRawString s; (tok, rest, braceDepth)
  | r :: s =>
      if r.is fun c => u.isLetter c || c = '_' then
        let (tok, rest) := scanIdent u (r :: s)
        (tok, rest, braceDepth)
      else if r.is u.isDigit then
        let (tok, rest) := scanNumberOrDuration u (r :: s)
        (tok, rest, braceDepth)
      else (⟨.tokError, [r.rewritten]⟩, s, braceDepth)

def skipWS (s : Runes) : Runes := s.dropWhile (Rune.is isSpace)

/-- The tokens before the end; each takes a rune, so as much fuel as runes is enough. -/
def lexemesFrom : Nat → Nat → Runes → List Lexeme
  | 0, _, _ => []
  | fuel + 1, braceDepth, s =>
      match skipWS s with
      | [] => []
      | r :: start =>
          let (tok, rest, braceDepth) := scanToken u braceDepth (r :: start)
          ⟨tok, r :: start, rest⟩ :: lexemesFrom fuel braceDepth rest

/-- The token stream of a query, up to its end. -/
def lexemes (input : Runes) : List Lexeme := lexemesFrom u input.length 0 input

/-! ## Every token takes a rune -/

variable {fuel braceDepth : Nat} {s : Runes}

/-- The runes of a literal that is closed behind them when backslashes are escapes. -/
def quotedBody (q : Rune) : Runes → Bool
  | [] => true
  | [.point '\\'] => false
  | .point '\\' :: _ :: s => quotedBody q s
  | r :: s => r ≠ q && quotedBody q s

/-- What stands before the closing quote is a well-formed body. -/
theorem quotedBody_of_closingQuote {rest : Runes} (h : closingQuote s = some rest) :
    ∃ body, s = body ++ .point '"' :: rest ∧ quotedBody (.point '"') body = true := by
  fun_induction closingQuote s with
  | case1 | case3 => cases h
  | case2 s =>
    cases h
    exact ⟨[], rfl, rfl⟩
  | case4 r s ih =>
    obtain ⟨body, rfl, hbody⟩ := ih h
    exact ⟨.point '\\' :: r :: body, rfl, by rw [quotedBody]; exact hbody⟩
  | case5 r s hquote hslash hescape ih =>
    obtain ⟨body, rfl, hbody⟩ := ih h
    refine ⟨r :: body, rfl, ?_⟩
    rw [quotedBody, hbody, Bool.and_true, decide_eq_true_eq]
    · exact hquote
    · rintro rfl rfl
      exact hescape _ _ rfl rfl
    · rintro r' s' rfl rfl
      exact hescape _ _ rfl rfl

theorem length_scanQuotedString (s : Runes) : (scanQuotedString s).2.length ≤ s.length := by
  unfold scanQuotedString
  split
  next => exact Nat.zero_le _
  next rest hrest =>
    obtain ⟨body, rfl, -⟩ := quotedBody_of_closingQuote hrest
    have hle : rest.length ≤ (body ++ Rune.point '"' :: rest).length := by
      simp only [length_append, length_cons]
      omega
    dsimp only
    split
    next => exact hle
    next =>
      split <;> exact hle

theorem length_scanRawString (s : Runes) : (scanRawString s).2.length ≤ s.length := by
  simp only [scanRawString, length_tail, length_drop]
  omega

theorem length_scanIdent {r : Rune} (hr : identRune u r = true) (s : Runes) :
    (scanIdent u (r :: s)).2.length ≤ s.length := by
  simp only [scanIdent, takeWhile_cons_of_pos hr, length_cons, length_drop]
  omega

theorem length_scanSegments (fuel : Nat) (sawUnit : Bool) (s : Runes) :
    (scanSegments u fuel sawUnit s).2.length ≤ s.length := by
  induction fuel generalizing sawUnit s with
  | zero => exact le_rfl
  | succ fuel ih =>
    rw [scanSegments]
    split
    next => simp
    next =>
      split
      next => simp
      next => exact (ih _ _).trans (by simp only [length_drop]; omega)

theorem length_scanNumberOrDuration {r : Rune} (hr : r.is u.isDigit = true) (s : Runes) :
    (scanNumberOrDuration u (r :: s)).2.length ≤ s.length := by
  have hdigit : (r.is fun c => u.isDigit c || c = '.') = true := by
    cases r with
    | point c =>
      have hc : u.isDigit c = true := hr
      simp [Rune.is, hc]
    | stray b => cases hr
  have hfirst : ((r :: s).takeWhile (Rune.is fun c => u.isDigit c || c = '.')) ≠ [] := by
    rw [takeWhile_cons_of_pos hdigit]
    exact cons_ne_nil _ _
  have hdrop : ((r :: s).drop ((r :: s).takeWhile
      (Rune.is fun c => u.isDigit c || c = '.')).length).length ≤ s.length := by
    rw [takeWhile_cons_of_pos hdigit]
    simp only [length_cons, drop_succ_cons, length_drop]
    omega
  simp only [scanNumberOrDuration, length_cons]
  rw [scanSegments, if_neg (by simpa using hfirst)]
  split
  next => exact hdrop
  next =>
    refine (length_scanSegments u _ _ _).trans ?_
    rw [length_drop]
    exact (Nat.sub_le _ _).trans hdrop

/-- Every token takes at least its first rune. -/
theorem length_scanToken (braceDepth : Nat) (r : Rune) (s : Runes) :
    (scanToken u braceDepth (r :: s)).2.1.length ≤ s.length := by
  unfold scanToken
  split
  case h_1 => contradiction
  case h_31 s' heq =>
    obtain ⟨-, rfl⟩ := cons.inj heq
    exact length_scanQuotedString s
  case h_32 s' heq =>
    obtain ⟨-, rfl⟩ := cons.inj heq
    exact length_scanRawString s
  case h_33 heq =>
    obtain ⟨rfl, rfl⟩ := cons.inj heq
    dsimp only
    split
    next h =>
      refine length_scanIdent u ?_ s
      cases r with
      | point c =>
        have hc : (u.isLetter c || decide (c = '_')) = true := h
        simp only [identRune, Rune.is, Bool.or_eq_true, decide_eq_true_eq] at hc ⊢
        obtain hc | hc := hc <;> simp [hc]
      | stray b => cases h
    next =>
      split
      next h => exact length_scanNumberOrDuration u h s
      next => exact le_rfl
  -- The tokens that are spelled out take one rune or two.
  all_goals
    rename_i heq
    have hlength := congrArg List.length heq
    simp only [spelled, length_cons] at hlength ⊢
    omega

/-! ## The stream, token by token -/

theorem length_skipWS (s : Runes) : (skipWS s).length ≤ s.length :=
  length_dropWhile_le _ s

/-- Fuel beyond the length of the text changes nothing. -/
theorem lexemesFrom_fuel {fuel' : Nat} (braceDepth : Nat) (h : s.length ≤ fuel)
    (h' : s.length ≤ fuel') :
    lexemesFrom u fuel braceDepth s = lexemesFrom u fuel' braceDepth s := by
  induction fuel generalizing fuel' braceDepth s with
  | zero =>
    obtain rfl := length_eq_zero_iff.mp (Nat.le_zero.mp h)
    cases fuel' with
    | zero | succ fuel' => rfl
  | succ fuel ih =>
    cases fuel' with
    | zero =>
      obtain rfl := length_eq_zero_iff.mp (Nat.le_zero.mp h')
      rfl
    | succ fuel' =>
      rw [lexemesFrom, lexemesFrom]
      have hskip := length_skipWS s
      split
      next => rfl
      next r start heq =>
        have hrest := length_scanToken u braceDepth r start
        rw [heq, length_cons] at hskip
        generalize scanToken u braceDepth (r :: start) = out at hrest ⊢
        obtain ⟨tok, rest, depth⟩ := out
        dsimp only at hrest
        exact congrArg (List.cons _) (ih depth (by omega) (by omega))

/-- One step of the scanner on a text that is not blank. -/
theorem lexemesFrom_eq_cons {start : Runes} {r : Rune} (hfuel : s.length ≤ fuel)
    (h : skipWS s = r :: start) :
    lexemesFrom u fuel braceDepth s =
      ⟨(scanToken u braceDepth (r :: start)).1, r :: start,
        (scanToken u braceDepth (r :: start)).2.1⟩ ::
      lexemesFrom u (scanToken u braceDepth (r :: start)).2.1.length
        (scanToken u braceDepth (r :: start)).2.2 (scanToken u braceDepth (r :: start)).2.1 := by
  have hskip := length_skipWS s
  have hrest := length_scanToken u braceDepth r start
  rw [h, length_cons] at hskip
  obtain ⟨fuel, rfl⟩ := Nat.exists_eq_add_of_le' (show 1 ≤ fuel by omega)
  rw [lexemesFrom, h]
  dsimp only
  generalize scanToken u braceDepth (r :: start) = out at hrest ⊢
  obtain ⟨tok, rest, depth⟩ := out
  have hrest : rest.length ≤ fuel := le_trans hrest (by omega)
  exact congrArg (List.cons _) (lexemesFrom_fuel u depth hrest le_rfl)

end LokiVlProxy.Logql.Syntax
