/-
  Logql/LabelFilter.lean --- label filter expressions.

  Source: internal/logql/pipeline.go: parseLabelFilter, lfParser, labelFilterBinary,
  labelFilterPred, matchAnchored, parseNumericLabel.

  The parser reads bytes; every byte it looks for is ASCII, so the model reads characters.
-/
import Mathlib
import LokiVlProxy.Foundation.Text

namespace LokiVlProxy.Logql

open Foundation

/-- What the filters use of `strconv`, `time`, `regexp` and float arithmetic. -/
structure Stdlib (F : Type) where
  parseFloat : Text → Option F
  /-- `time.ParseDuration`, in seconds -/
  parseDuration : Text → Option F
  times : F → Nat → F
  lt : F → F → Bool
  le : F → F → Bool
  eq : F → F → Bool
  /-- `regexp.Compile` and `MatchString` -/
  regexp : Text → Option (Text → Bool)

/-- `map[string]string`. -/
abbrev Labels : Type := Text → Option Text

/-! ## Filters -/

/-- The operators of `lfOps`. -/
inductive LfOp where
  | ge | le | eqEq | ne | reMatch | reNotMatch | gt | lt | eq
  deriving DecidableEq, Repr

structure LabelFilterPred (F : Type) where
  name : Text
  op : LfOp
  str : Text
  num : Option F
  deriving DecidableEq, Repr

inductive LabelFilter (F : Type) where
  | binary (or : Bool) (left right : LabelFilter F)
  | pred (p : LabelFilterPred F)
  deriving DecidableEq, Repr

variable {F : Type} (lib : Stdlib F)

def byteUnitFactors : List (String × Nat) :=
  [("KiB", 2 ^ 10), ("MiB", 2 ^ 20), ("GiB", 2 ^ 30), ("TiB", 2 ^ 40), ("kB", 10 ^ 3),
    ("KB", 10 ^ 3), ("MB", 10 ^ 6), ("GB", 10 ^ 9), ("TB", 10 ^ 12), ("B", 1)]

/-- A byte size with this unit. -/
def parseByteSize (s : Text) (unit : String × Nat) : Option F :=
  if unit.1.toList <:+ s then
    (lib.parseFloat (trimSpace (s.take (s.length - unit.1.toList.length)))).map fun f =>
      lib.times f unit.2
  else none

def parseNumericLabel (s : Text) : Option F :=
  let s := trimSpace s
  if s = [] then none
  else (lib.parseFloat s).or
    ((byteUnitFactors.findSome? (parseByteSize lib s)).or (lib.parseDuration s))

def matchAnchored (pattern val : Text) : Bool :=
  match lib.regexp ("^(?:".toList ++ pattern ++ ")$".toList) with
  | none => false
  | some re => re val

/-- A comparison with a number. -/
def LfOp.compare (op : LfOp) (got num : F) : Bool :=
  match op with
  | .gt => lib.lt num got
  | .ge => lib.le num got
  | .lt => lib.lt got num
  | .le => lib.le got num
  | .eqEq => lib.eq got num
  | .eq => lib.eq got num
  | .ne => !lib.eq got num
  | _ => false

/-- A comparison with a quoted value. -/
def LfOp.compareText (op : LfOp) (val str : Text) : Bool :=
  match op with
  | .eq => val = str
  | .eqEq => val = str
  | .ne => val ≠ str
  | .reMatch => matchAnchored lib str val
  | .reNotMatch => !matchAnchored lib str val
  | _ => false

def LabelFilterPred.eval (f : LabelFilterPred F) (l : Labels) : Bool :=
  match f.num with
  | some num =>
      match (l f.name).bind (parseNumericLabel lib) with
      | none => false
      | some got => f.op.compare lib got num
  | none => f.op.compareText lib ((l f.name).getD []) f.str

def LabelFilter.eval : LabelFilter F → Labels → Bool
  | .binary or left right, l => if or then left.eval l || right.eval l else left.eval l && right.eval l
  | .pred p, l => p.eval lib l

/-! ## The parser -/

/-- Why a filter is refused.  Each message also quotes the whole text. -/
inductive LfError where
  /-- `unsupported label filter expression: %s` -/
  | unsupportedExpression
  /-- `unbalanced parenthesis in label filter %q` -/
  | unbalancedParenthesis
  /-- `expected label name in label filter %q` -/
  | expectedLabelName
  /-- `expected comparison operator after %q in label filter %q` -/
  | expectedOperator (name : Text)
  /-- `missing value after %q in label filter %q` -/
  | missingValue (op : LfOp)
  /-- `unsupported literal %q in label filter %q` -/
  | unsupportedLiteral (lit : Text)
  /-- `unterminated string in label filter %q` -/
  | unterminatedString
  | outOfFuel
  deriving DecidableEq, Repr

def skipSpace (s : Text) : Text := s.dropWhile fun c => c = ' ' || c = '\t'

/-- `hasWord`, with the text after the word. -/
def hasWord (word : String) (s : Text) : Option Text :=
  if word.toList <+: s then
    match s.drop word.toList.length with
    | [] => some []
    | c :: rest => if c = ' ' || c = '\t' || c = '(' then some (c :: rest) else none
  else none

/-- A connector between two terms. -/
inductive Connector where
  | comma | and | or
  deriving DecidableEq, Repr

/-- The connector at the front of the text, if there is one. -/
def connector (s : Text) : Option (Connector × Text) :=
  match s with
  | ',' :: rest => some (.comma, rest)
  | _ =>
      match hasWord "and" s with
      | some rest => some (.and, rest)
      | none => (hasWord "or" s).map fun rest => (.or, rest)

def isIdentByte (c : Char) : Bool :=
  c = '_' || ('a' ≤ c && c ≤ 'z') || ('A' ≤ c && c ≤ 'Z') || ('0' ≤ c && c ≤ '9')

/-- `lfOps`, in the order they are tried. -/
def lfOps : List (String × LfOp) :=
  [(">=", .ge), ("<=", .le), ("==", .eqEq), ("!=", .ne), ("=~", .reMatch), ("!~", .reNotMatch),
    (">", .gt), ("<", .lt), ("=", .eq)]

def unescapeByte (c : Char) : Char :=
  if c = 'n' then '\n' else if c = 't' then '\t' else if c = 'r' then '\r' else c

/-- `readQuoted`, after the opening quote. -/
def readQuoted (q : Char) : Text → Option (Text × Text)
  | [] => none
  | [c] => if c = q then some ([], []) else none
  | c :: e :: rest =>
      if c = q then some ([], e :: rest)
      else if q == '"' && c == '\\' then
        (readQuoted q rest).map fun r => (unescapeByte e :: r.1, r.2)
      else (readQuoted q (e :: rest)).map fun r => (c :: r.1, r.2)

/-- The value of a predicate: quoted, or a number up to a blank, a comma or a parenthesis. -/
def parseValue (name : Text) (op : LfOp) (s : Text) :
    Except LfError (LabelFilterPred F × Text) :=
  match s with
  | [] => .error (.missingValue op)
  | q :: rest =>
      if q = '"' || q = '`' then
        match readQuoted q rest with
        | none => .error .unterminatedString
        | some (val, rest) => .ok (⟨name, op, val, none⟩, rest)
      else
        let lit := s.takeWhile fun c => !(c = ' ' || c = ',' || c = ')')
        match parseNumericLabel lib lit with
        | none => .error (.unsupportedLiteral lit)
        | some num => .ok (⟨name, op, [], some num⟩, s.drop lit.length)

def parsePredicate (s : Text) : Except LfError (LabelFilterPred F × Text) :=
  let s := skipSpace s
  let name := s.takeWhile fun c => isIdentByte c || c = '.'
  if name = [] then .error .expectedLabelName
  else
    let s := skipSpace (s.drop name.length)
    match lfOps.find? fun op => op.1.toList <+: s with
    | none => .error (.expectedOperator name)
    | some op => parseValue lib name op.2 (skipSpace (s.drop op.1.toList.length))

mutual

/-- `parseExpr`: a term and what is connected to it. -/
def parseExpr : Nat → Text → Except LfError (LabelFilter F × Text)
  | 0, _ => .error .outOfFuel
  | fuel + 1, s =>
      match parseTerm fuel s with
      | .error e => .error e
      | .ok (left, s) => parseConnected fuel left s

/-- The loop of `parseExpr`. -/
def parseConnected : Nat → LabelFilter F → Text → Except LfError (LabelFilter F × Text)
  | 0, _, _ => .error .outOfFuel
  | fuel + 1, left, s =>
      match connector (skipSpace s) with
      | none => .ok (left, skipSpace s)
      | some (c, s) =>
          match parseTerm fuel s with
          | .error e => .error e
          | .ok (right, s) => parseConnected fuel (.binary (c = .or) left right) s

def parseTerm : Nat → Text → Except LfError (LabelFilter F × Text)
  | 0, _ => .error .outOfFuel
  | fuel + 1, s =>
      match skipSpace s with
      | '(' :: s =>
          match parseExpr fuel s with
          | .error e => .error e
          | .ok (inner, s) =>
              match skipSpace s with
              | ')' :: s => .ok (inner, s)
              | _ => .error .unbalancedParenthesis
      | s =>
          match parsePredicate lib s with
          | .error e => .error e
          | .ok (p, s) => .ok (.pred p, s)

end

def parseLabelFilter (raw : Text) : Except LfError (LabelFilter F) :=
  match parseExpr lib (2 * raw.length + 3) raw with
  | .error e => .error e
  | .ok (f, rest) => if skipSpace rest = [] then .ok f else .error .unsupportedExpression

/-! ## The parser reads on -/

theorem length_skipSpace_le (s : Text) : (skipSpace s).length ≤ s.length :=
  (List.dropWhile_suffix _).length_le

variable {s rest : Text} {p : LabelFilterPred F}

theorem eq_append_of_hasWord {word : String} (h : hasWord word s = some rest) :
    s = word.toList ++ rest := by
  unfold hasWord at h
  split at h
  · next hword =>
    obtain ⟨s, rfl⟩ := hword
    rw [List.drop_left] at h
    cases s with
    | nil => rw [← Option.some.inj h]
    | cons c s =>
      rw [← Option.some.inj (Option.ite_none_right_eq_some.mp h).2]
  · cases h

theorem length_of_connector {c : Connector} (h : connector s = some (c, rest)) :
    rest.length < s.length := by
  have word : ∀ {w : String}, w.toList ≠ [] → hasWord w s = some rest → rest.length < s.length := by
    intro w hw hrest
    rw [eq_append_of_hasWord hrest, List.length_append]
    exact Nat.lt_add_of_pos_left (List.length_pos_of_ne_nil hw)
  unfold connector at h
  split at h
  · obtain ⟨-, rfl⟩ := Prod.mk.inj (Option.some.inj h)
    simp
  · split at h
    · next hand =>
      obtain ⟨-, rfl⟩ := Prod.mk.inj (Option.some.inj h)
      exact word (by decide) hand
    · obtain ⟨rest', hor, heq⟩ := Option.map_eq_some_iff.mp h
      obtain ⟨-, rfl⟩ := Prod.mk.inj heq
      exact word (by decide) hor

theorem length_of_readQuoted {q : Char} {val : Text} (h : readQuoted q s = some (val, rest)) :
    rest.length < s.length := by
  fun_induction readQuoted q s generalizing val with
  | case1 | case3 => exact absurd h (by simp)
  | case2 | case4 =>
    obtain ⟨-, rfl⟩ := Prod.mk.inj (Option.some.inj h)
    simp
  | case5 c e s hc hq ih | case6 c e s hc hq ih =>
    obtain ⟨r, hread, heq⟩ := Option.map_eq_some_iff.mp h
    obtain ⟨-, rfl⟩ := Prod.mk.inj heq
    have := ih hread
    simp only [List.length_cons] at this ⊢
    omega

section

variable {α : Type} {enough enough' : Prop} {bound bound' : Nat} {x : Except LfError (α × Text)}

/-- What is left is shorter than `bound`, and with enough fuel the parser comes to an end. -/
def Reads (enough : Prop) (bound : Nat) : Except LfError (α × Text) → Prop
  | .ok (_, rest) => rest.length < bound
  | .error why => enough → why ≠ .outOfFuel

theorem reads_error {why : LfError} (h : why ≠ .outOfFuel) :
    Reads enough bound (.error why : Except LfError (α × Text)) := fun _ => h

theorem Reads.mono (h : Reads enough bound x) (hfuel : enough' → enough) (hle : bound ≤ bound') :
    Reads enough' bound' x := by
  cases x with
  | ok r => exact Nat.lt_of_lt_of_le h hle
  | error why => exact fun he => h (hfuel he)

end

theorem reads_parseValue (name : Text) (op : LfOp) (s : Text) :
    Reads True (s.length + 1) (parseValue lib name op s) := by
  unfold parseValue
  split
  · exact reads_error nofun
  · split
    · split
      · exact reads_error nofun
      · next hread => exact (length_of_readQuoted hread).trans (by simp)
    · dsimp only
      split
      · exact reads_error nofun
      · exact Nat.lt_succ_of_le (List.drop_suffix _ _).length_le

/-- Reading a comparison never runs out of fuel and takes at least a character. -/
theorem reads_parsePredicate (s : Text) : Reads True s.length (parsePredicate lib s) := by
  unfold parsePredicate
  dsimp only
  split
  · exact reads_error nofun
  next hname =>
  split
  · exact reads_error nofun
  have hblank := length_skipSpace_le s
  have hpos := List.length_pos_of_ne_nil hname
  have hle : ((skipSpace s).takeWhile fun c => isIdentByte c || c = '.').length ≤
      (skipSpace s).length := (List.takeWhile_prefix _).length_le
  refine (reads_parseValue lib _ _ _).mono id (Nat.succ_le_of_lt ?_)
  calc _ ≤ _ := length_skipSpace_le _
    _ ≤ (skipSpace ((skipSpace s).drop _)).length := (List.drop_suffix _ _).length_le
    _ ≤ ((skipSpace s).drop _).length := length_skipSpace_le _
    _ < s.length := by
      rw [List.length_drop]
      omega

theorem length_of_parsePredicate (h : parsePredicate lib s = .ok (p, rest)) :
    rest.length < s.length := by
  have hreads := reads_parsePredicate lib s
  rwa [h] at hreads

/-- What is parsed takes text from the front, a term at least one character, and two units of
fuel for each character are enough. -/
theorem reads_parse (fuel : Nat) :
    (∀ s, Reads (2 * s.length + 2 ≤ fuel) s.length (parseExpr lib fuel s)) ∧
    (∀ left s, Reads (2 * s.length + 1 ≤ fuel) (s.length + 1) (parseConnected lib fuel left s)) ∧
    (∀ s, Reads (2 * s.length + 1 ≤ fuel) s.length (parseTerm lib fuel s)) := by
  induction fuel with
  | zero =>
    exact ⟨fun s h => absurd h (by omega), fun left s h => absurd h (by omega),
      fun s h => absurd h (by omega)⟩
  | succ fuel ih =>
    obtain ⟨ihexpr, ihconnected, ihterm⟩ := ih
    refine ⟨fun s => ?_, fun left s => ?_, fun s => ?_⟩
    · have hterm := ihterm s
      rw [parseExpr]
      generalize parseTerm lib fuel s = term at hterm ⊢
      obtain why | ⟨left, rest⟩ := term
      · exact fun hfuel => hterm (by omega)
      · have hterm : rest.length < s.length := hterm
        exact (ihconnected left rest).mono (by omega) hterm
    · have hblank := length_skipSpace_le s
      rw [parseConnected]
      split
      · exact Nat.lt_succ_of_le hblank
      · next c s' hc =>
        have hlt := length_of_connector hc
        have hterm := ihterm s'
        generalize parseTerm lib fuel s' = term at hterm ⊢
        obtain why | ⟨right, rest⟩ := term
        · exact fun hfuel => hterm (by omega)
        · have hterm : rest.length < s'.length := hterm
          exact (ihconnected _ rest).mono (by omega) (by omega)
    · have hblank := length_skipSpace_le s
      rw [parseTerm]
      split
      · next s' hopen =>
        rw [hopen, List.length_cons] at hblank
        have hexpr := ihexpr s'
        generalize parseExpr lib fuel s' = expr at hexpr ⊢
        obtain why | ⟨inner, rest⟩ := expr
        · exact fun hfuel => hexpr (by omega)
        · have hexpr : rest.length < s'.length := hexpr
          have hrest := length_skipSpace_le rest
          dsimp only
          split
          · next hclose =>
            rw [hclose, List.length_cons] at hrest
            rw [Reads]
            omega
          · exact reads_error nofun
      · have hpred := reads_parsePredicate lib (skipSpace s)
        generalize parsePredicate lib (skipSpace s) = pred at hpred ⊢
        obtain why | ⟨p, rest⟩ := pred
        · exact fun _ => hpred trivial
        · exact Nat.lt_of_lt_of_le hpred hblank

/-- The fuel of the parser is enough for every text. -/
theorem parseLabelFilter_ne_outOfFuel (raw : Text) :
    parseLabelFilter lib raw ≠ .error .outOfFuel := by
  have hreads := (reads_parse lib (2 * raw.length + 3)).1 raw
  unfold parseLabelFilter
  split
  · next e hexpr =>
    rw [hexpr] at hreads
    exact fun he => hreads (by omega) (Except.error.inj he)
  · split <;> simp

open List

/-! ## Chains of predicates

LogQL reads `and` and `,` tighter than `or`: a filter without parentheses is the disjunction of
its or-free runs. -/

def Connector.text : Connector → Text
  | .comma => [',']
  | .and => ['a', 'n', 'd']
  | .or => ['o', 'r']

/-- A blank as `skipSpace` knows it. -/
def IsBlank (c : Char) : Prop := c = ' ' ∨ c = '\t'

/-- The text is predicates joined by connectors; behind a word stands a blank. -/
inductive Joined : Text → LabelFilterPred F → List (Connector × LabelFilterPred F) → Prop
  | last {s : Text} {p : LabelFilterPred F} (blanks : Text) (hp : parsePredicate lib s = .ok (p, blanks))
      (hblanks : ∀ c ∈ blanks, IsBlank c) : Joined s p []
  | join {s : Text} {p q : LabelFilterPred F} {c : Connector}
      {chain : List (Connector × LabelFilterPred F)} (blanks s' : Text)
      (hp : parsePredicate lib s = .ok (p, blanks ++ c.text ++ s'))
      (hblanks : ∀ c ∈ blanks, IsBlank c)
      (hword : c ≠ .comma → ∃ b, s'.head? = some b ∧ IsBlank b)
      (hrest : Joined s' q chain) : Joined s p ((c, q) :: chain)

/-- What the loop of `parseExpr` makes of a chain. -/
def connect (left : LabelFilter F) (chain : List (Connector × LabelFilterPred F)) : LabelFilter F :=
  chain.foldl (fun left next => .binary (next.1 = .or) left (.pred next.2)) left

variable {s : Text} {p : LabelFilterPred F} {chain : List (Connector × LabelFilterPred F)}

theorem skipSpace_blanks {blanks : Text} (hblanks : ∀ c ∈ blanks, IsBlank c) :
    skipSpace (blanks ++ s) = skipSpace s := by
  unfold skipSpace
  rw [dropWhile_append_of_pos]
  intro c hc
  simpa [IsBlank] using hblanks c hc

theorem skipSpace_eq_nil {blanks : Text} (hblanks : ∀ c ∈ blanks, IsBlank c) :
    skipSpace blanks = [] := by
  rw [← append_nil blanks, skipSpace_blanks hblanks]
  rfl

/-- A connector is read back from its text. -/
theorem connector_text {c : Connector} (hword : c ≠ .comma → ∃ b, s.head? = some b ∧ IsBlank b) :
    connector (skipSpace (c.text ++ s)) = some (c, s) := by
  cases c with
  | comma => rfl
  | and | or =>
    obtain ⟨b, hb, hblank⟩ := hword (by simp)
    obtain ⟨s', rfl⟩ := head?_eq_some_iff.mp hb
    rcases hblank with rfl | rfl <;> simp [Connector.text, skipSpace, connector, hasWord]

theorem parseTerm_of_parsePredicate {rest : Text} (fuel : Nat)
    (hp : parsePredicate lib s = .ok (p, rest)) :
    parseTerm lib (fuel + 1) s = .ok (.pred p, rest) := by
  have hskip : parsePredicate lib (skipSpace s) = parsePredicate lib s := by
    unfold parsePredicate skipSpace
    rw [dropWhile_idempotent]
  rw [parseTerm]
  split
  · next s' hopen =>
    have : parsePredicate lib s = .error .expectedLabelName := by
      unfold parsePredicate
      rw [hopen]
      rfl
    rw [this] at hp
    exact absurd hp (by simp)
  · rw [hskip, hp]

/-- A joined chain of comparisons is read comparison by comparison. -/
theorem parseConnected_of_joined (h : Joined lib s p chain) :
    ∃ rest, parsePredicate lib s = .ok (p, rest) ∧
      ∀ (fuel : Nat) (left : LabelFilter F), chain.length + 2 ≤ fuel →
        parseConnected lib fuel left rest = .ok (connect left chain, []) := by
  induction h with
  | last blanks hp hblanks =>
    refine ⟨blanks, hp, ?_⟩
    intro fuel left hfuel
    obtain ⟨fuel, rfl⟩ : ∃ n, fuel = n + 1 := ⟨fuel - 1, by omega⟩
    rw [parseConnected, skipSpace_eq_nil hblanks]
    rfl
  | @join s p q c chain blanks s' hp hblanks hword hrest ih =>
    obtain ⟨rest, hq, hconnected⟩ := ih
    refine ⟨blanks ++ c.text ++ s', hp, ?_⟩
    intro fuel left hfuel
    rw [length_cons] at hfuel
    obtain ⟨fuel, rfl⟩ : ∃ n, fuel = n + 2 := ⟨fuel - 2, by omega⟩
    rw [parseConnected, append_assoc, skipSpace_blanks hblanks, connector_text hword]
    simp only [parseTerm_of_parsePredicate lib fuel hq]
    exact hconnected (fuel + 1) _ (by omega)

theorem length_of_joined (h : Joined lib s p chain) : chain.length < s.length := by
  induction h with
  | last blanks hp => exact Nat.zero_lt_of_lt (length_of_parsePredicate lib hp)
  | join blanks s' hp hblanks hword hrest ih =>
    have hlt := length_of_parsePredicate lib hp
    simp only [length_append, length_cons] at hlt ⊢
    omega

/-- The filter of a joined chain is its comparisons, connected from the left. -/
theorem parseLabelFilter_of_joined {raw : Text} (h : Joined lib raw p chain) :
    parseLabelFilter lib raw = .ok (connect (.pred p) chain) := by
  obtain ⟨rest, hp, hconnected⟩ := parseConnected_of_joined lib h
  have hlength := length_of_joined lib h
  have hexpr : parseExpr lib (2 * raw.length + 3) raw = .ok (connect (.pred p) chain, []) := by
    rw [parseExpr]
    simp only [parseTerm_of_parsePredicate lib (2 * raw.length + 1) hp]
    exact hconnected _ _ (by omega)
  unfold parseLabelFilter
  rw [hexpr]
  rfl

/-! ## Or-free runs -/

/-- A maximal run of predicates without an `or` between them. -/
structure FilterRun (F : Type) where
  first : LabelFilterPred F
  others : List (LabelFilterPred F)
  deriving DecidableEq, Repr

/-- The conjunction of the run. -/
def FilterRun.holds (r : FilterRun F) (l : Labels) : Bool :=
  (r.first :: r.others).all fun p => p.eval lib l

/-- The run that starts with `p`, and the runs behind it. -/
def runsFrom (p : LabelFilterPred F) :
    List (Connector × LabelFilterPred F) → FilterRun F × List (FilterRun F)
  | [] => (⟨p, []⟩, [])
  | (c, q) :: chain =>
      let next := runsFrom q chain
      if c = .or then (⟨p, []⟩, next.1 :: next.2) else (⟨p, q :: next.1.others⟩, next.2)

/-- The runs of a chain. -/
def runs (p : LabelFilterPred F) (chain : List (Connector × LabelFilterPred F)) :
    List (FilterRun F) :=
  (runsFrom p chain).1 :: (runsFrom p chain).2

/-- What a label filter means in LogQL. -/
def holdsByPrecedence (p : LabelFilterPred F) (chain : List (Connector × LabelFilterPred F))
    (l : Labels) : Bool :=
  (runs p chain).any fun r => r.holds lib l

theorem runsFrom_cons (p q : LabelFilterPred F) (c : Connector)
    (chain : List (Connector × LabelFilterPred F)) :
    runsFrom p ((c, q) :: chain) =
      if c = .or then (⟨p, []⟩, (runsFrom q chain).1 :: (runsFrom q chain).2)
      else (⟨p, q :: (runsFrom q chain).1.others⟩, (runsFrom q chain).2) := rfl

@[simp] theorem first_runsFrom (p : LabelFilterPred F) (chain : List (Connector × LabelFilterPred F)) :
    (runsFrom p chain).1.first = p := by
  cases chain with
  | nil => rfl
  | cons next chain =>
    rw [runsFrom_cons]
    split <;> rfl

/-- What a run makes of the value of everything before it, when read from the left. -/
def FilterRun.fold (r : FilterRun F) (l : Labels) (before : Bool) : Bool :=
  (before || r.first.eval lib l) && r.others.all fun p => p.eval lib l

/-- A chain is evaluated run by run: `and` within a run, `or` between the runs. -/
theorem eval_connect (left : LabelFilter F) (p : LabelFilterPred F)
    (chain : List (Connector × LabelFilterPred F)) (l : Labels) :
    (connect left chain).eval lib l =
      (runsFrom p chain).2.foldl (fun before r => r.fold lib l before)
        (left.eval lib l && (runsFrom p chain).1.others.all fun p => p.eval lib l) := by
  induction chain generalizing left p with
  | nil => simp [connect, runsFrom]
  | cons next chain ih =>
    obtain ⟨c, q⟩ := next
    have hstep : connect left ((c, q) :: chain) =
        connect (.binary (c = .or) left (.pred q)) chain := rfl
    rw [hstep, ih _ q, runsFrom_cons]
    split
    · next hc => simp [hc, LabelFilter.eval, FilterRun.fold]
    · next hc => simp [hc, LabelFilter.eval, Bool.and_assoc]

theorem eval_connect_pred (p : LabelFilterPred F) (chain : List (Connector × LabelFilterPred F))
    (l : Labels) :
    (connect (.pred p) chain).eval lib l =
      (runs p chain).foldl (fun before r => r.fold lib l before) false := by
  rw [eval_connect lib _ p]
  simp [runs, FilterRun.fold, LabelFilter.eval]

/-! ## Where the two readings part -/

variable (rs : List (FilterRun F))

/-- The value read from the left holds when some run holds and none behind it fails after its
first predicate. -/
theorem foldl_fold_iff (l : Labels) :
    rs.foldl (fun before r => r.fold lib l before) false = true ↔
      ∃ before r after, rs = before ++ r :: after ∧ r.holds lib l = true ∧
        ∀ s ∈ after, ∀ p ∈ s.others, p.eval lib l = true := by
  induction rs using List.reverseRecOn with
  | nil => simp
  | append_singleton rs last ih =>
    rw [foldl_append, foldl_cons, foldl_nil, FilterRun.fold, Bool.and_eq_true,
      Bool.or_eq_true, ih, all_eq_true]
    constructor
    · rintro ⟨⟨before, r, after, rfl, hr, hafter⟩ | hfirst, hlast⟩
      · refine ⟨before, r, after ++ [last], by simp, hr, ?_⟩
        intro s hs
        rcases mem_append.mp hs with hs | hs
        · exact hafter s hs
        · obtain rfl := mem_singleton.mp hs
          exact hlast
      · refine ⟨rs, last, [], rfl, ?_, by simp⟩
        simpa [FilterRun.holds, hfirst] using hlast
    · rintro ⟨before, r, after, hsplit, hr, hafter⟩
      rcases eq_nil_or_concat after with rfl | ⟨after, s, rfl⟩
      · obtain ⟨rfl, hlast⟩ := append_inj' hsplit rfl
        obtain rfl := (cons.inj hlast).1
        simp only [FilterRun.holds, all_cons, Bool.and_eq_true, all_eq_true] at hr
        exact ⟨Or.inr hr.1, hr.2⟩
      · rw [concat_eq_append, ← cons_append, ← append_assoc] at hsplit
        obtain ⟨rfl, hlast⟩ := append_inj' hsplit rfl
        obtain rfl := (cons.inj hlast).1
        refine ⟨Or.inl ⟨before, r, after, rfl, hr, ?_⟩, ?_⟩
        · intro s hs
          exact hafter s (by simp [hs])
        · exact hafter last (by simp)

/-- A run that fails after its first predicate stands behind one that holds only when another
one behind it holds as well. -/
def NoRunCutsDown (l : Labels) : Prop :=
  ∀ before r after, rs = before ++ r :: after →
    (∃ p ∈ r.others, p.eval lib l = false) → (∃ s ∈ before, s.holds lib l = true) →
      ∃ s ∈ after, s.holds lib l = true

theorem FilterRun.eval_others {lib : Stdlib F} {r : FilterRun F} {l : Labels}
    (hr : r.holds lib l = true) (hp : p ∈ r.others) : p.eval lib l = true :=
  all_eq_true.mp hr p (mem_cons_of_mem _ hp)

theorem exists_last_holds {lib : Stdlib F} {rs : List (FilterRun F)} {l : Labels}
    (hsome : ∃ r ∈ rs, r.holds lib l = true) :
    ∃ before r after, rs = before ++ r :: after ∧ r.holds lib l = true ∧
      ∀ s ∈ after, ¬ s.holds lib l = true := by
  obtain ⟨s, hs, hholds⟩ := hsome
  have hfind : (rs.reverse.find? fun r => r.holds lib l).isSome :=
    find?_isSome.mpr ⟨s, mem_reverse.mpr hs, hholds⟩
  obtain ⟨r, hr⟩ := Option.isSome_iff_exists.mp hfind
  obtain ⟨hr, after, before, hsplit, hafter⟩ := find?_eq_some_iff_append.mp hr
  refine ⟨before.reverse, r, after.reverse, ?_, hr, ?_⟩
  · rw [← reverse_reverse rs, hsplit]
    simp
  · intro s hs
    simpa using hafter s (mem_reverse.mp hs)

/-- The left fold agrees with the disjunction of the runs exactly when no run cuts an earlier one
down. -/
theorem foldl_fold_eq_any_iff (l : Labels) :
    rs.foldl (fun before r => r.fold lib l before) false = rs.any (fun r => r.holds lib l) ↔
      NoRunCutsDown lib rs l := by
  rw [Bool.eq_iff_iff, foldl_fold_iff, any_eq_true]
  constructor
  · intro heq before r after hsplit ⟨p, hp, hfalse⟩ ⟨s, hs, hholds⟩
    have hr : ¬ r.holds lib l = true := fun hr => by simp [FilterRun.eval_others hr hp] at hfalse
    obtain ⟨before', r', after', hsplit', hr', hafter'⟩ := heq.mpr ⟨s, by simp [hsplit, hs], hholds⟩
    rcases append_eq_append_iff.mp (hsplit.symm.trans hsplit') with
      ⟨between, -, htail⟩ | ⟨between, -, htail⟩
    · cases between with
      | nil => exact absurd ((cons.inj htail).1 ▸ hr') hr
      | cons x between => exact ⟨r', by simp [(cons.inj htail).2], hr'⟩
    · cases between with
      | nil => exact absurd ((cons.inj htail).1 ▸ hr') hr
      | cons x between =>
        have hmem : r ∈ after' := by simp [(cons.inj htail).2]
        simp [hafter' r hmem p hp] at hfalse
  · intro hcut
    refine ⟨fun ⟨before, r, after, hsplit, hr, _⟩ => ⟨r, by simp [hsplit], hr⟩, fun hsome => ?_⟩
    obtain ⟨before, r, after, rfl, hr, hlast⟩ := exists_last_holds hsome
    refine ⟨before, r, after, rfl, hr, ?_⟩
    intro s hs p hp
    by_contra hfalse
    obtain ⟨a, b, rfl⟩ := append_of_mem hs
    obtain ⟨t, ht, hholds⟩ := hcut (before ++ r :: a) s b (by simp)
      ⟨p, hp, Bool.not_eq_true _ ▸ hfalse⟩ ⟨r, by simp, hr⟩
    exact hlast t (by simp [ht]) hholds

/-- For a label filter without parentheses the parser's reading agrees with precedence exactly
when no run cuts down what an earlier one has already let through. -/
theorem labelFilter_precedence_iff {raw : Text} {p : LabelFilterPred F}
    {chain : List (Connector × LabelFilterPred F)} (h : Joined lib raw p chain) :
    ∃ f, parseLabelFilter lib raw = .ok f ∧
      ∀ l : Labels, f.eval lib l = holdsByPrecedence lib p chain l ↔
        NoRunCutsDown lib (runs p chain) l := by
  refine ⟨connect (.pred p) chain, parseLabelFilter_of_joined lib h, fun l => ?_⟩
  rw [eval_connect_pred, holdsByPrecedence]
  exact foldl_fold_eq_any_iff lib (runs p chain) l

/-- A library that reads whole numbers and compiles no expression. -/
def wholeNumbers : Stdlib Nat where
  parseFloat s := if s.all Char.isDigit then some (s.foldl (fun n c => 10 * n + (c.toNat - 48)) 0) else none
  parseDuration _ := none
  times := (· * ·)
  lt m n := m < n
  le m n := m ≤ n
  eq m n := m = n
  regexp _ := none

theorem joined_or_and :
    Joined wholeNumbers "env=\"prod\" or team=`infra` and level>4".toList
      ⟨"env".toList, .eq, "prod".toList, none⟩
      [(.or, ⟨"team".toList, .eq, "infra".toList, none⟩),
        (.and, ⟨"level".toList, .gt, [], some 4⟩)] := by
  refine .join [' '] " team=`infra` and level>4".toList (by decide +kernel) ?_ ?_ ?_
  · simp [IsBlank]
  · exact fun _ => ⟨' ', rfl, Or.inl rfl⟩
  refine .join [' '] " level>4".toList (by decide +kernel) ?_ ?_ ?_
  · simp [IsBlank]
  · exact fun _ => ⟨' ', rfl, Or.inl rfl⟩
  exact .last [] (by decide +kernel) (by simp)

theorem labelFilter_precedence_or_and :
    ∃ f, parseLabelFilter wholeNumbers "env=\"prod\" or team=`infra` and level>4".toList = .ok f ∧
      ∀ l : Labels, f.eval wholeNumbers l = holdsByPrecedence wholeNumbers
          ⟨"env".toList, .eq, "prod".toList, none⟩
          [(.or, ⟨"team".toList, .eq, "infra".toList, none⟩),
            (.and, ⟨"level".toList, .gt, [], some 4⟩)] l ↔
        NoRunCutsDown wholeNumbers
          [⟨⟨"env".toList, .eq, "prod".toList, none⟩, []⟩,
            ⟨⟨"team".toList, .eq, "infra".toList, none⟩, [⟨"level".toList, .gt, [], some 4⟩]⟩] l :=
  labelFilter_precedence_iff wholeNumbers joined_or_and

/-- The label that satisfies the first alternative is not let through. -/
theorem and_after_or_drops_match :
    ∃ f, parseLabelFilter wholeNumbers "env=\"prod\" or team=`infra` and level>4".toList = .ok f ∧
      f.eval wholeNumbers (fun name => if name = "env".toList then some "prod".toList else none)
        = false ∧
      holdsByPrecedence wholeNumbers ⟨"env".toList, .eq, "prod".toList, none⟩
          [(.or, ⟨"team".toList, .eq, "infra".toList, none⟩),
            (.and, ⟨"level".toList, .gt, [], some 4⟩)]
          (fun name => if name = "env".toList then some "prod".toList else none) = true :=
  ⟨connect (.pred ⟨"env".toList, .eq, "prod".toList, none⟩)
      [(.or, ⟨"team".toList, .eq, "infra".toList, none⟩), (.and, ⟨"level".toList, .gt, [], some 4⟩)],
    by decide +kernel⟩

end LokiVlProxy.Logql
