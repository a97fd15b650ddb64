/-
  Logsql/Filter.lean --- filters on one field of a LogsQL query.

  Source: internal/logsql/ast.go.

  A row is what a filter is evaluated on: a value for each field, where a field that is not there
  has the empty value.
-/
import LokiVlProxy.Foundation.Quoting

namespace LokiVlProxy.Logsql

open Foundation List

variable (u : UnicodeTables)

/-! ## Texts -/

/-- The escape of a rune in `quoteLogsQL`. -/
def quoteLogsQLRune (r : Rune) : Runes :=
  if r = .point '\\' ∨ r = .point '"' then [.point '\\', r] else [r]

/-- `quoteLogsQL`: the second replacement does not see the backslashes of the first as quotes. -/
def quoteLogsQL (s : Runes) : Runes := .point '"' :: (s.flatMap quoteLogsQLRune ++ [.point '"'])

/-- `quoteLogsQLPattern`, that is `QuotePattern`. -/
def quotePattern (s : Runes) : Runes := quote u s

inductive FieldOp where
  | exact | regexp | startsWith | substring | empty | any | gt | gte | lt | lte | range | isIn
  | ipv4Range | ipv6Range | exactStart | eqField | leField | stringRange | valueType
  | jsonArrayContainsAny | containsCommonCase | equalsCommonCase
  deriving DecidableEq, Repr

namespace FieldOp

/-- What `FieldFilter.String` writes behind the name of the field. -/
def text (value : Runes) : FieldOp → Runes
  | .exact => literal ":=" ++ quoteLogsQL value
  | .regexp => literal ":~" ++ quotePattern u value
  | .startsWith => literal ":" ++ value ++ literal "*"
  | .substring => literal ":*" ++ value ++ literal "*"
  | .empty => literal ":\"\""
  | .any => literal ":*"
  | .gt => literal ":>" ++ value
  | .gte => literal ":>=" ++ value
  | .lt => literal ":<" ++ value
  | .lte => literal ":<=" ++ value
  | .range => literal ":range(" ++ value ++ literal ")"
  | .isIn => literal ":in(" ++ value ++ literal ")"
  | .ipv4Range => literal ":ipv4_range(" ++ value ++ literal ")"
  | .ipv6Range => literal ":ipv6_range(" ++ value ++ literal ")"
  | .exactStart => literal ":=" ++ quoteLogsQL value ++ literal "*"
  | .eqField => literal ":eq_field(" ++ value ++ literal ")"
  | .leField => literal ":le_field(" ++ value ++ literal ")"
  | .stringRange => literal ":string_range(" ++ value ++ literal ")"
  | .valueType => literal ":value_type(" ++ value ++ literal ")"
  | .jsonArrayContainsAny => literal ":json_array_contains_any(" ++ value ++ literal ")"
  | .containsCommonCase => literal ":contains_common_case(" ++ value ++ literal ")"
  | .equalsCommonCase => literal ":equals_common_case(" ++ value ++ literal ")"

end FieldOp

structure FieldFilter where
  field : Runes
  op : FieldOp
  value : Runes
  negate : Bool
  deriving DecidableEq, Repr

namespace FieldFilter

/-- `FieldFilter.String`. -/
def text (f : FieldFilter) : Runes :=
  (if f.negate then literal "NOT " else []) ++ f.field ++ f.op.text u f.value

end FieldFilter

/-! ## Reading a filter back -/

/-- What an escaped rune stands for in `scanQuoted`. -/
def unescaped : Rune → Runes
  | .point 'n' => [.point '\n']
  | .point 't' => [.point '\t']
  | .point '"' => [.point '"']
  | .point '\\' => [.point '\\']
  | r => [.point '\\', r]

/-- `scanQuoted`, behind the opening quote: the value, and the text behind the closing quote. -/
def scanQuoted : Runes → Option (Runes × Runes)
  | [] => none
  | .point '"' :: s => some ([], s)
  | .point '\\' :: r :: s => (scanQuoted s).map fun (val, rest) => (unescaped r ++ val, rest)
  | r :: s => (scanQuoted s).map fun (val, rest) => (r :: val, rest)

/-- A quoted value is read back, whatever follows. -/
theorem scanQuoted_quoteLogsQL (s rest : Runes) :
    scanQuoted (s.flatMap quoteLogsQLRune ++ .point '"' :: rest) = some (s, rest) := by
  induction s with
  | nil => rfl
  | cons r s ih =>
    rw [flatMap_cons, append_assoc, quoteLogsQLRune]
    split
    case isTrue h =>
      obtain rfl | rfl := h
      all_goals
        rw [cons_append, singleton_append, scanQuoted, ih]
        rfl
    case isFalse h =>
      rw [not_or] at h
      rw [singleton_append, scanQuoted, ih]
      · rfl
      · exact fun hr => h.2 hr
      · exact fun r' s' hr => absurd hr h.1

/-- The operator behind the name of a field: its value, and whether it negates.  The backend
unquotes a pattern as Go does. -/
def readOp : Runes → Option (FieldOp × Runes × Bool)
  | .point ':' :: .point '=' :: .point '"' :: s =>
      match scanQuoted s with
      | some (value, []) => some (.exact, value, false)
      | _ => none
  | .point ':' :: .point '~' :: s => (unquote s).map fun value => (.regexp, value, false)
  | .point ':' :: .point '>' :: .point '=' :: s => some (.gte, s, false)
  | .point ':' :: .point '>' :: s => some (.gt, s, false)
  | .point ':' :: .point '<' :: .point '=' :: s => some (.lte, s, false)
  | .point ':' :: .point '<' :: s => some (.lt, s, false)
  | [.point ':', .point '!', .point '"', .point '"'] => some (.exact, [], true)
  | [.point ':', .point '*'] => some (.any, [], false)
  | _ => none

/-- The name of a field, quoted or not, and the text behind it. -/
def readField : Runes → Runes × Runes
  | .point '"' :: s => (s.takeWhile (· ≠ .point '"'), (s.dropWhile (· ≠ .point '"')).tail)
  | s => (s.takeWhile (· ≠ .point ':'), s.dropWhile (· ≠ .point ':'))

/-- A filter behind its sign. -/
def readUnsigned (sign : Bool) (s : Runes) : Option FieldFilter :=
  (readOp (readField s).2).map fun (op, value, negate) =>
    ⟨(readField s).1, op, value, sign != negate⟩

/-- A filter on one field, read from its text. -/
def readFieldFilter : Runes → Option FieldFilter
  | .point '-' :: s => readUnsigned true s
  | s => readUnsigned false s

/-- A name that is read as a label behind any sign gives a filter on that label. -/
theorem readFieldFilter_of_name {name label s value : Runes} {op : FieldOp} {negate : Bool}
    (hname : readField (name ++ .point ':' :: s) = (label, .point ':' :: s)) (hne : name ≠ [])
    (hsign : name.head? ≠ some (.point '-')) (sign : Bool)
    (hs : readOp (.point ':' :: s) = some (op, value, negate)) :
    readFieldFilter ((if sign then literal "-" else []) ++ name ++ .point ':' :: s) =
      some ⟨label, op, value, sign != negate⟩ := by
  have hread : readUnsigned sign (name ++ .point ':' :: s) =
      some ⟨label, op, value, sign != negate⟩ := by
    rw [readUnsigned, hname, hs]
    rfl
  cases sign with
  | true => exact hread
  | false =>
    rw [if_neg Bool.false_ne_true, nil_append, readFieldFilter]
    · exact hread
    · intro rest hrest
      cases name with
      | nil => exact hne rfl
      | cons r name => exact hsign (congrArg some (cons.inj hrest).1)

/-- An exact comparison is read back with its value. -/
theorem readOp_exact (value : Runes) :
    readOp (FieldOp.text u value .exact) = some (.exact, value, false) := by
  have hscan : scanQuoted (value.flatMap quoteLogsQLRune ++ [.point '"']) = some (value, []) :=
    scanQuoted_quoteLogsQL value []
  refine (readOp.eq_1 (value.flatMap quoteLogsQLRune ++ [.point '"'])).trans ?_
  rw [hscan]

/-- A text is a filter: it reads as one with this field, operator and sign, and a value of the same
bytes. -/
def Reads (text : Runes) (f : FieldFilter) : Prop :=
  ∃ value, readFieldFilter text = some { f with value := value } ∧ encode value = encode f.value

/-! ## Rows -/

/-- The values of the fields of a row. -/
abbrev Row : Type := Runes → Runes

/-- What the backend finds for an operator: its value, and the value in the row. -/
abbrev Backend : Type := FieldOp → Runes → Runes → Prop

namespace FieldOp

/-- Whether a value in a row passes a filter. -/
def Holds (vl : Backend) (op : FieldOp) (value found : Runes) : Prop :=
  match op with
  | .exact => found = value
  | .any => found ≠ []
  | op => vl op value found

end FieldOp

end LokiVlProxy.Logsql
