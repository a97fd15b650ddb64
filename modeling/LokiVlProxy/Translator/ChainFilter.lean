/-
  Translator/ChainFilter.lean --- matching on a label that several fields back.

  Source: internal/translator/mapping.go; the value shown is that of applyLabelPromotions in
  internal/proxy/mapped_labels.go.

  A label with a fallback chain has the value of the first field of the chain that is not blank.
-/
import LokiVlProxy.Logql.Literals
import LokiVlProxy.Logsql.Filter

namespace LokiVlProxy.Translator

open Foundation Logsql List
open Logql.Syntax (trimRunes)

variable (u : UnicodeTables)

/-! ## Filters over a chain -/

/-- A byte that a bare field name may hold; digits do not come first. -/
def bareFieldRune (first : Bool) (r : Rune) : Bool :=
  r.is fun c => c = '_' || ('a' ≤ c && c ≤ 'z') || ('A' ≤ c && c ≤ 'Z') ||
    (!first && '0' ≤ c && c ≤ '9')

def quoteVLField : Runes → Runes
  | [] => []
  | .point '"' :: field => .point '"' :: field
  | r :: field =>
      if bareFieldRune true r && field.all (bareFieldRune false) then r :: field
      else .point '"' :: ((r :: field).flatMap fun r =>
        if r = .point '"' then [.point '\\', r] else [r]) ++ [.point '"']

def buildFieldFilterStr (field : Runes) (op : FieldOp) (value : Runes) (negate : Bool) : Runes :=
  (if negate then literal "-" else []) ++ FieldFilter.text u ⟨field, op, value, false⟩

/-- One field's part of a filter over a chain. -/
inductive Part where
  | compare (op : FieldOp) (value : Runes) (negate : Bool)
  | present
  | absent
  deriving DecidableEq, Repr

namespace Part

def text (field : Runes) : Part → Runes
  | .compare op value negate => buildFieldFilterStr u (quoteVLField field) op value negate
  | .present => quoteVLField field ++ literal ":!\"\""
  | .absent => literal "-" ++ quoteVLField field ++ literal ":*"

/-- Whether a field's value passes. -/
def Holds (vl : Backend) (found : Runes) : Part → Prop
  | .compare op value false => op.Holds vl value found
  | .compare op value true => ¬ op.Holds vl value found
  | .present => found ≠ []
  | .absent => ¬ FieldOp.any.Holds vl [] found

/-- The filter on one field that a part stands for. -/
def filter (field : Runes) : Part → FieldFilter
  | .compare op value negate => ⟨field, op, value, negate⟩
  | .present => ⟨field, .exact, [], true⟩
  | .absent => ⟨field, .any, [], true⟩

/-- A part holds where its filter does. -/
theorem holds_iff_filter (vl : Backend) (field found : Runes) (part : Part) :
    part.Holds vl found ↔
      ((part.filter field).negate = true ↔
        ¬ (part.filter field).op.Holds vl (part.filter field).value found) := by
  cases part with
  | compare op value negate => cases negate <;> simp [Holds, filter]
  | present | absent => simp [Holds, filter, FieldOp.Holds]

end Part

section

variable {field : Runes} (hne : field ≠ []) (hquote : .point '"' ∉ field)
include hne hquote

theorem quoteVLField_eq :
    quoteVLField field = field ∧ (∀ r ∈ field, r ≠ .point ':' ∧ r ≠ .point '-') ∨
      quoteVLField field = .point '"' :: (field ++ [.point '"']) := by
  cases field with
  | nil => exact absurd rfl hne
  | cons r field =>
    have hr : r ≠ .point '"' := fun h => hquote (h ▸ mem_cons_self)
    rw [quoteVLField]
    · split
      · next hbare =>
        rw [Bool.and_eq_true, all_eq_true] at hbare
        refine .inl ⟨rfl, forall_mem_cons.mpr ⟨?_, fun q hq => ?_⟩⟩
        · constructor <;> rintro rfl <;> simp [bareFieldRune, Rune.is] at hbare
        · have := hbare.2 q hq
          constructor <;> rintro rfl <;> simp [bareFieldRune, Rune.is] at this
      · refine .inr ?_
        have hid : (r :: field).flatMap (fun r => if r = .point '"' then [.point '\\', r] else [r]) =
            r :: field := by
          have hplain : ∀ q ∈ r :: field, (if q = .point '"' then [.point '\\', q] else [q]) = [q] :=
            fun q hq => if_neg (ne_of_mem_of_not_mem hq hquote)
          rw [flatMap_congr hplain, flatMap_singleton']
        rw [hid]
        rfl
    · exact hr

/-- A quoted field name is read back. -/
theorem readField_quoteVLField (s : Runes) :
    readField (quoteVLField field ++ .point ':' :: s) = (field, .point ':' :: s) := by
  have hname : ∀ r ∈ field, decide (r ≠ .point '"') = true := fun r hr =>
    decide_eq_true fun hq => hquote (hq ▸ hr)
  obtain ⟨hbare, hplain⟩ | hquoted := quoteVLField_eq hne hquote
  · have hcolon : ∀ r ∈ field, decide (r ≠ .point ':') = true := fun r hr =>
      decide_eq_true (hplain r hr).1
    rw [hbare, readField, takeWhile_append_of_pos hcolon, dropWhile_append_of_pos hcolon]
    · simp
    · intro rest hrest
      cases field with
      | nil => exact hne rfl
      | cons r field => exact hquote ((cons.inj hrest).1 ▸ mem_cons_self)
  · rw [hquoted, cons_append, append_assoc, readField, takeWhile_append_of_pos hname,
      dropWhile_append_of_pos hname]
    simp

/-- The text of a part is read as its filter. -/
theorem Part.readFieldFilter_text {part : Part}
    (hpart : ∀ op value negate, part = .compare op value negate → op = .exact) :
    readFieldFilter (part.text u field) = some (part.filter field) := by
  have hnil : quoteVLField field ≠ [] := by
    obtain ⟨h, -⟩ | h := quoteVLField_eq hne hquote <;> simp [h, hne]
  have hsign : (quoteVLField field).head? ≠ some (.point '-') := by
    obtain ⟨h, hplain⟩ | h := quoteVLField_eq hne hquote
    · rw [h]
      exact fun hhead => (hplain _ (mem_of_head? hhead)).2 rfl
    · simp [h]
  cases part with
  | compare op value negate =>
    obtain rfl := hpart op value negate rfl
    have hread := readFieldFilter_of_name (readField_quoteVLField hne hquote
      (.point '=' :: quoteLogsQL value)) hnil hsign negate (readOp_exact u value)
    rw [Bool.bne_false, append_assoc] at hread
    exact hread
  | present =>
    have hop : readOp (literal ":!\"\"") = some (.exact, [], true) := rfl
    exact readFieldFilter_of_name (readField_quoteVLField hne hquote _) hnil hsign false hop
  | absent =>
    have hop : readOp (literal ":*") = some (.any, [], false) := rfl
    exact readFieldFilter_of_name (readField_quoteVLField hne hquote _) hnil hsign true hop

end

/-- A filter over a chain: one part on each field, of which one has to hold or all. -/
structure ChainFilter where
  part : Part
  alternative : Bool
  deriving DecidableEq, Repr

namespace ChainFilter

/-- The parts, joined as the code joins them. -/
def text (f : ChainFilter) (fields : List Runes) : Runes :=
  match fields.map (f.part.text u) with
  | [] => []
  | [part] => part
  | parts =>
      literal "(" ++ (literal (if f.alternative then " OR " else " ")).intercalate parts ++
        literal ")"

/-- Whether a row passes. -/
def Holds (vl : Backend) (f : ChainFilter) (fields : List Runes) (row : Row) : Prop :=
  if f.alternative then ∃ field ∈ fields, f.part.Holds vl (row field)
  else ∀ field ∈ fields, f.part.Holds vl (row field)

end ChainFilter

/-- A matcher `=` or, with negation, `!=` on a value. -/
def Matches (value : Runes) (negate : Bool) (found : Runes) : Prop :=
  if negate then found ≠ value else found = value
  deriving Decidable

variable (vl : Backend) (negate : Bool) (fields : List Runes) (row : Row)

end LokiVlProxy.Translator
