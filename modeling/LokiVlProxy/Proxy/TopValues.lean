/-
  Proxy/TopValues.lean --- the filter for the busiest values of a field.

  Source: internal/proxy/range_metric_compat.go: collectTopValueRangeMetricHits; internal/
  proxy/metric_binary.go: buildVLInFilter; internal/proxy/drilldown_burst_coalescer.go:
  quoteLogsQLIdent.
-/
import LokiVlProxy.Logsql.Filter

namespace LokiVlProxy.Proxy

open Foundation Logsql List

def maxTopValueFilterBytes : Nat := 12 * 2 ^ 10

def isLogsQLIdentChar : Rune → Bool
  | .point c => c.isAlphanum || c == '_'
  | .stray _ => false

/-- `quoteLogsQLIdent`. -/
def quoteLogsQLIdent (name : Runes) : Runes :=
  let tick : Rune := .point '\x60'
  if name.all isLogsQLIdentChar then name
  else tick :: name.flatMap (fun r => if r = tick then [.point '\\', r] else [r]) ++ [tick]

/-- `buildVLInFilter`. -/
def buildVLInFilter (field : Runes) (values : List Runes) : Runes :=
  quoteLogsQLIdent field ++ literal ":in(" ++
    (literal ",").intercalate (values.map quoteLogsQL) ++ literal ")"

variable (field : Runes) (values : List Runes)

def filterBytes : Nat := byteSize (buildVLInFilter field values)

/-- The values that a round of the loop keeps. -/
def cutTopValues : List Runes :=
  values.take (values.length * maxTopValueFilterBytes / filterBytes field values)

/-- The condition of the loop in `collectTopValueRangeMetricHits`. -/
def TooLong : Prop :=
  maxTopValueFilterBytes < filterBytes field values ∧ 1 < values.length
  deriving Decidable

variable {field} {values : List Runes}

theorem length_cutTopValues_lt (h : TooLong field values) :
    (cutTopValues field values).length < values.length := by
  rw [cutTopValues, length_take]
  refine (Nat.min_le_left _ _).trans_lt (Nat.div_lt_of_lt_mul ?_)
  rw [Nat.mul_comm]
  exact Nat.mul_lt_mul_of_pos_right h.1 (Nat.zero_lt_of_lt h.2)

/-- The loop in `collectTopValueRangeMetricHits`. -/
def trimTopValues (field : Runes) (values : List Runes) : List Runes :=
  if TooLong field values then trimTopValues field (cutTopValues field values) else values
termination_by values.length
decreasing_by exact length_cutTopValues_lt ‹_›

/-- The lists that the loop cuts, from the first on. -/
def trimmedLists (field : Runes) (values : List Runes) : List (List Runes) :=
  if TooLong field values then values :: trimmedLists field (cutTopValues field values)
  else []
termination_by values.length
decreasing_by exact length_cutTopValues_lt ‹_›

variable (field values)

/-- Trimming keeps the first values. -/
theorem trimTopValues_isPrefix : trimTopValues field values <+: values := by
  fun_induction trimTopValues field values with
  | case1 values h ih => exact ih.trans <| take_prefix _ _
  | case2 values h => exact prefix_rfl

/-- What is left is not too long. -/
theorem not_tooLong_trimTopValues : ¬ TooLong field (trimTopValues field values) := by
  fun_induction trimTopValues field values with
  | case1 values h ih => exact ih
  | case2 values h => exact h

variable {field values}

/-- A cut leaves a value exactly when a value has room for its share. -/
theorem cutTopValues_ne_nil_iff (h : TooLong field values) :
    cutTopValues field values ≠ [] ↔
      filterBytes field values ≤ values.length * maxTopValueFilterBytes := by
  have hpos : 0 < filterBytes field values := Nat.zero_lt_of_lt h.1
  have hne : values ≠ [] := length_pos_iff.mp (Nat.zero_lt_of_lt h.2)
  rw [cutTopValues, ne_eq, take_eq_nil_iff, or_iff_left hne, Nat.div_eq_zero_iff_lt hpos,
    not_lt]

/-- A value is left if no list that is cut holds more bytes than the limit for each value. -/
theorem trimTopValues_ne_nil_iff (hne : values ≠ []) :
    trimTopValues field values ≠ [] ↔ ∀ vs ∈ trimmedLists field values,
      filterBytes field vs ≤ vs.length * maxTopValueFilterBytes := by
  fun_induction trimTopValues field values with
  | case1 values h ih =>
    rw [trimmedLists, if_pos h, forall_mem_cons, ← cutTopValues_ne_nil_iff h]
    constructor
    · intro htrim
      have hcut : cutTopValues field values ≠ [] := fun hnil =>
        htrim (prefix_nil.mp (hnil ▸ trimTopValues_isPrefix field _))
      exact ⟨hcut, (ih hcut).mp htrim⟩
    · exact fun ⟨hcut, hrest⟩ => (ih hcut).mpr hrest
  | case2 values h =>
    rw [trimmedLists, if_neg h]
    simpa using hne

/-- The loop ends with the busiest values and a filter that fits, or with the busiest value
alone, exactly if none of the lists it cuts is longer than the limit for each value. -/
theorem trimTopValues_keeps_busiest_iff (field v : Runes) (values : List Runes) :
    (trimTopValues field (v :: values) <+: v :: values ∧
      trimTopValues field (v :: values) ≠ [] ∧
      (filterBytes field (trimTopValues field (v :: values)) ≤ maxTopValueFilterBytes ∨
        (trimTopValues field (v :: values)).length = 1)) ↔
      ∀ vs ∈ trimmedLists field (v :: values),
        filterBytes field vs ≤ vs.length * maxTopValueFilterBytes := by
  rw [← trimTopValues_ne_nil_iff (cons_ne_nil v values)]
  constructor
  · exact fun h => h.2.1
  · intro hne
    have hstop := not_tooLong_trimTopValues field (v :: values)
    have hpos := length_pos_iff.mpr hne
    refine ⟨trimTopValues_isPrefix _ _, hne, ?_⟩
    rw [TooLong] at hstop
    omega

/-- Two values of the limit's size leave none. -/
theorem trimTopValues_two_long :
    let long := fun c => replicate maxTopValueFilterBytes (.point c)
    trimTopValues (literal "f") [long 'a', long 'b'] = [] := by
  intro long
  have hlen : 2 * maxTopValueFilterBytes <
      (buildVLInFilter (literal "f") [long 'a', long 'b']).length := by
    have hflat : ∀ c ∈ ['a', 'b'], (long c).flatMap quoteLogsQLRune = long c := by
      simp [long, quoteLogsQLRune, flatMap_replicate]
    simp only [buildVLInFilter, quoteLogsQL, map_cons, map_nil, hflat 'a' (by simp),
      hflat 'b' (by simp), intercalate_cons_cons, intercalate_singleton, length_append,
      length_cons, length_replicate, long]
    omega
  have hbytes := hlen.trans_le (length_le_byteSize _)
  have hlong : TooLong (literal "f") [long 'a', long 'b'] :=
    ⟨(Nat.le_mul_of_pos_left _ two_pos).trans_lt hbytes, by simp⟩
  have hcut := (cutTopValues_ne_nil_iff hlong).not_right.mpr hbytes.not_ge
  rw [trimTopValues, if_pos hlong, hcut, trimTopValues, if_neg (by simp [TooLong])]

end LokiVlProxy.Proxy
