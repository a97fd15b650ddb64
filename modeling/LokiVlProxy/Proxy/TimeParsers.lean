/-
  Proxy/TimeParsers.lean --- the three parsers of time parameters and where they agree.

  Source: internal/proxy/time_utils.go: parseFlexibleUnixNanos, normalizeUnixNanos;
  internal/proxy/query_range_windowing.go: parseLokiTimeToUnixNano (in Proxy/MetadataKey.lean),
  parseLokiTimeRangeToUnixNano, normalizeLokiNumericTimeToUnixNano;
  internal/proxy/cold_routing.go: parseFlexTimestamp, ParseTimeRangeFromRequest.

  A number without a unit is taken for seconds, milliseconds, microseconds or nanoseconds by its
  size.  For each kind of parameter there are the sizes at which the parsers take the same unit and
  the product has 64 bits, and the bounds for which the cold path queries the range of the windowed
  path.
-/
import LokiVlProxy.Foundation.Float64
import LokiVlProxy.Proxy.MetadataKey
import Mathlib.Data.Nat.Prime.Int

namespace LokiVlProxy.Proxy

open Foundation MetadataKey Int64

/-! ## Reading -/

/-- What the standard library reads.  Instants are in nanoseconds, of any size. -/
structure InstantLib where
  /-- `time.Parse(time.RFC3339Nano, ·)` -/
  rfc3339Nano : Text → Option Int
  /-- `time.Parse(time.RFC3339, ·)` -/
  rfc3339 : Text → Option Int
  /-- `time.ParseDuration` -/
  parseDuration : Text → Option Int64
  /-- `strconv.ParseFloat` -/
  parseFloat : Text → Option Float64
  rules : FloatRules
  rfc3339Nano_shape : ∀ text ns, rfc3339Nano text = some ns → 'T' ∈ text ∧ Trimmed text
  rfc3339_shape : ∀ text ns, rfc3339 text = some ns → 'T' ∈ text ∧ Trimmed text
  parseFloat_nil : parseFloat [] = none
  parseFloat_now : ∀ text, parseFloat ('n' :: 'o' :: 'w' :: text) = none

theorem notMem_T_toDigits (n : Nat) : 'T' ∉ Nat.toDigits 10 n := by
  intro h
  exact absurd (isDigit_of_mem_toDigits h) (by decide)

namespace InstantLib

variable (lib : InstantLib)

/-- An RFC 3339 time, with or without fractions of a second. -/
def instant (text : Text) : Option Int := (lib.rfc3339Nano text).or (lib.rfc3339 text)

/-- The number that `normalizeLokiNumericTimeToUnixNano` converts. -/
def lokiScaled (f : Float64) : Float64 :=
  if f.absLt 100000000000 then f.scale lib.rules 1000000000
  else if f.absLt 100000000000000 then f.scale lib.rules 1000000
  else if f.absLt 100000000000000000 then f.scale lib.rules 1000
  else f

/-- The library as `parseLokiTimeToUnixNano` uses it. -/
def times : TimeLib where
  rfc3339Nano text := (lib.rfc3339Nano text).map Int64.ofInt
  rfc3339 text := (lib.rfc3339 text).map Int64.ofInt
  parseDuration := lib.parseDuration
  parseFloatTime text := (lib.parseFloat text).map fun f => (lib.lokiScaled f).toInt64 lib.rules
  rfc3339Nano_digits n := by
    cases h : lib.rfc3339Nano (Nat.toDigits 10 n) with
    | none => rfl
    | some ns => exact absurd (lib.rfc3339Nano_shape _ ns h).1 (notMem_T_toDigits n)
  rfc3339_digits n := by
    cases h : lib.rfc3339 (Nat.toDigits 10 n) with
    | none => rfl
    | some ns => exact absurd (lib.rfc3339_shape _ ns h).1 (notMem_T_toDigits n)

/-- The number that `parseFlexibleUnixNanos` converts. -/
def flexibleScaled (f : Float64) : Float64 :=
  if f.absGe 1000000000000000000 then f
  else if f.absGe 1000000000000000 then f.scale lib.rules 1000
  else if f.absGe 1000000000000 then f.scale lib.rules 1000000
  else f.scale lib.rules 1000000000

end InstantLib

/-! ## Units -/

/-- The functions that read a time parameter: `parseFlexibleUnixNanos`,
`parseLokiTimeToUnixNano` and `parseFlexTimestamp`. -/
inductive TimeParser where
  | flexible
  | loki
  | cold
  deriving DecidableEq, Repr

/-- `abs` in `normalizeUnixNanos`. -/
def abs64 (v : Int64) : Int64 := if v < 0 then -v else v

/-- The nanoseconds that one counts for in an integer. -/
def TimeParser.unit : TimeParser → Int64 → Int64
  | .flexible, v =>
      if 1000000000000000000 ≤ abs64 v then 1
      else if 1000000000000000 ≤ abs64 v then 1000
      else if 1000000000000 ≤ abs64 v then 1000000
      else 1000000000
  | .loki, v =>
      if abs64 v < 100000000000 then 1000000000
      else if abs64 v < 100000000000000 then 1000000
      else if abs64 v < 100000000000000000 then 1000
      else 1
  | .cold, n =>
      if n > 1000000000000000000 then 1
      else if n > 1000000000000000 then 1000
      else if n > 1000000000000 then 1000000
      else 1000000000

def normalizeUnixNanos (v : Int64) : Int64 := v * TimeParser.flexible.unit v

/-! ## The parsers -/

namespace InstantLib

variable (lib : InstantLib)

def parseFlexibleUnixNanos (raw : Text) : Option Int64 :=
  let value := trimSpace raw
  if value.isEmpty then none
  else
    match lib.instant value with
    | some ns => some (Int64.ofInt ns)
    | none =>
        match parseInt value with
        | some integer => some (normalizeUnixNanos (Int64.ofInt integer))
        | none => (lib.parseFloat value).map fun f => (lib.flexibleScaled f).toInt64 lib.rules

def parseFlexTimestamp (s : Text) : Option Int64 :=
  match parseInt s with
  | some n => some (Int64.ofInt n * TimeParser.cold.unit (Int64.ofInt n))
  | none => (lib.instant s).map Int64.ofInt

/-- What a parser makes of a parameter when the clock shows `now`. -/
def parse (now : Int64) : TimeParser → Text → Option Int64
  | .flexible, raw => lib.parseFlexibleUnixNanos raw
  | .loki, raw => lib.times.parseLokiTimeToUnixNano now raw
  | .cold, raw => lib.parseFlexTimestamp raw

/-- The instant that the parser's unit gives a time or a number, whatever its size. -/
def denoted (p : TimeParser) (raw : Text) : Option Int :=
  let value := trimSpace raw
  match lib.instant value with
  | some ns => some ns
  | none =>
      match parseInt value with
      | some n => some (n * (p.unit (Int64.ofInt n)).toInt)
      | none =>
          (lib.parseFloat value).bind fun f =>
            match p with
            | .flexible => (lib.flexibleScaled f).whole
            | .loki => (lib.lokiScaled f).whole
            | .cold => none

/-- Any two parsers that accept the parameter give the same instant, and each gives the instant
that its unit stands for. -/
def AgreeOn (now : Int64) (raw : Text) : Prop :=
  ∀ p q : TimeParser, p ≠ q → ∀ a b, lib.parse now p raw = some a → lib.parse now q raw = some b →
    a = b ∧ lib.denoted p raw = some a.toInt ∧ lib.denoted q raw = some b.toInt

/-- `parseLokiTimeRangeToUnixNano`, with what the clock shows at each bound. -/
def parseLokiTimeRangeToUnixNano (nowStart nowEnd : Int64) (startRaw endRaw : Text) :
    Option (Int64 × Int64) :=
  match lib.times.parseLokiTimeToUnixNano nowStart startRaw,
    lib.times.parseLokiTimeToUnixNano nowEnd endRaw with
  | some startNs, some endNs => if endNs < startNs then none else some (startNs, endNs)
  | _, _ => none

/-- A bound of `ParseTimeRangeFromRequest` before its default. -/
def coldBound (raw : Text) : Int64 :=
  if raw.isEmpty then 0 else (lib.parseFlexTimestamp raw).getD 0

/-- `ParseTimeRangeFromRequest`, with what the clock shows at each default. -/
def parseTimeRangeFromRequest (nowStart nowEnd : Int64) (startStr endStr : Text) : Int64 × Int64 :=
  (if lib.coldBound startStr = 0 then nowStart - 3600000000000 else lib.coldBound startStr,
    if lib.coldBound endStr = 0 then nowEnd else lib.coldBound endStr)

end InstantLib

/-! ## Units as integers -/

/-- The value of `abs64`. -/
def absInt (n : Int) : Int := if n = -9223372036854775808 then n else n.natAbs

theorem toInt_abs64 (v : Int64) : (abs64 v).toInt = absInt v.toInt := by
  obtain ⟨hlow, hhigh⟩ := within64_toInt v
  have hzero : (0 : Int64).toInt = 0 := rfl
  unfold abs64 absInt
  split
  · next hneg =>
    rw [lt_iff_toInt_lt, hzero] at hneg
    rw [toInt_neg]
    split
    · next hmin =>
      rw [hmin]
      decide
    · rw [Int.bmod_eq_of_le (by omega) (by omega)]
      omega
  · next hneg =>
    rw [lt_iff_toInt_lt, hzero] at hneg
    rw [if_neg (by omega)]
    omega

/-- `unit` on integers. -/
def TimeParser.unitInt : TimeParser → Int → Int
  | .flexible, n =>
      if 1000000000000000000 ≤ absInt n then 1
      else if 1000000000000000 ≤ absInt n then 1000
      else if 1000000000000 ≤ absInt n then 1000000
      else 1000000000
  | .loki, n =>
      if absInt n < 100000000000 then 1000000000
      else if absInt n < 100000000000000 then 1000000
      else if absInt n < 100000000000000000 then 1000
      else 1
  | .cold, n =>
      if n > 1000000000000000000 then 1
      else if n > 1000000000000000 then 1000
      else if n > 1000000000000 then 1000000
      else 1000000000

theorem TimeParser.toInt_unit (p : TimeParser) (v : Int64) :
    (p.unit v).toInt = p.unitInt v.toInt := by
  cases p with
  | flexible | loki | cold =>
    simp only [unit, unitInt, gt_iff_lt, le_iff_toInt_le, lt_iff_toInt_lt, toInt_abs64,
      apply_ite toInt, reduceToInt]

open List Option TimeParser

/-! ## The conditions -/

/-- An integer that all three parsers read alike. -/
def AgreedByAll (n : Int) : Prop :=
  -9223372036 ≤ n ∧ n ≤ 9223372036 ∨ 1000000000000 < n ∧ n ≤ 9223372036854 ∨
    1000000000000000 < n ∧ n ≤ 9223372036854775 ∨ 1000000000000000000 < n

/-- An integer that the two parsers behind `trimSpace` read alike. -/
def AgreedByTwo (n : Int) : Prop :=
  n.natAbs ≤ 9223372036 ∨ 1000000000000 ≤ n.natAbs ∧ n.natAbs ≤ 9223372036854 ∨
    1000000000000000 ≤ n.natAbs ∧ n.natAbs ≤ 9223372036854775 ∨
    1000000000000000000 ≤ n.natAbs ∧ n ≠ -9223372036854775808

/-- A floating point number that the two parsers read alike. -/
def AgreedFloat (rules : FloatRules) : Float64 → Prop
  | .finite q =>
      |q| < 100000000000 ∧ Within64 (truncate (rules.round (q * 1000000000))) ∨
      (1000000000000 ≤ |q| ∧ |q| < 100000000000000) ∧
        Within64 (truncate (rules.round (q * 1000000))) ∨
      (1000000000000000 ≤ |q| ∧ |q| < 100000000000000000) ∧
        Within64 (truncate (rules.round (q * 1000))) ∨
      1000000000000000000 ≤ |q| ∧ Within64 (truncate q)
  | _ => False

/-- A parameter that the parsers read alike. -/
def InstantLib.Agreed (lib : InstantLib) (raw : Text) : Prop :=
  match lib.instant (trimSpace raw) with
  | some ns => Within64 ns
  | none =>
      match parseInt (trimSpace raw) with
      | some n => if trimSpace raw = raw then AgreedByAll n else AgreedByTwo n
      | none =>
          match lib.parseFloat (trimSpace raw) with
          | some f => AgreedFloat lib.rules f
          | none => True

/-- An integer for which the cold path takes the unit of the windowed path. -/
def SameUnit (n : Int) : Prop :=
  n ≠ 0 ∧ (-100000000000 < n ∧ n < 100000000000 ∨ 1000000000000 < n ∧ n < 100000000000000 ∨
    1000000000000000 < n ∧ n < 100000000000000000 ∨ 1000000000000000000 < n)

/-- A bound for which it queries the same instant. -/
def InstantLib.SameBound (lib : InstantLib) (raw : Text) : Prop :=
  match lib.instant raw with
  | some ns => Int64.ofInt ns ≠ 0
  | none =>
      match parseInt raw with
      | some n => SameUnit n
      | none => False

/-! ## Texts -/

variable {text : Text} {n : Int}

theorem mem_of_parseInt (h : parseInt text = some n) :
    text ≠ [] ∧ ∀ c ∈ text, c.isDigit = true ∨ c = '-' ∨ c = '+' := by
  have hdigits : ∀ {digits : Text} {m : Nat}, parseDigits digits = some m →
      digits ≠ [] ∧ ∀ c ∈ digits, c.isDigit = true := by
    intro digits m hm
    unfold parseDigits at hm
    split at hm
    · next hall => exact ⟨hall.1, all_eq_true.mp hall.2⟩
    · cases hm
  have hsigned : ∀ {digits : Text} {m : Nat} {sign : Char}, parseDigits digits = some m →
      sign = '-' ∨ sign = '+' → ∀ c ∈ sign :: digits, c.isDigit = true ∨ c = '-' ∨ c = '+' :=
    fun hm hsign => forall_mem_cons.mpr ⟨.inr hsign, fun c hc => .inl ((hdigits hm).2 c hc)⟩
  unfold parseInt at h
  split at h
  all_goals obtain ⟨m, hm, -⟩ := bind_eq_some_iff.mp h
  · exact ⟨cons_ne_nil _ _, hsigned hm (.inl rfl)⟩
  · exact ⟨cons_ne_nil _ _, hsigned hm (.inr rfl)⟩
  · exact ⟨(hdigits hm).1, fun c hc => .inl ((hdigits hm).2 c hc)⟩

theorem within64_of_parseInt (h : parseInt text = some n) : Within64 n := by
  unfold parseInt at h
  split at h
  all_goals
    obtain ⟨m, -, hm⟩ := bind_eq_some_iff.mp h
    dsimp only at hm
    split at hm
    · next hrange =>
      rw [← some.inj hm]
      exact hrange
    · cases hm

theorem trimSpace_of_parseInt (h : parseInt text = some n) : trimSpace text = text := by
  refine trimSpace_of_noSpace fun c hc => ?_
  rcases (mem_of_parseInt h).2 c hc with hdigit | rfl | rfl
  · exact isSpace_of_isDigit hdigit
  · decide
  · decide

namespace InstantLib

variable (lib : InstantLib) {text raw : Text}

theorem instant_shape {ns : Int} (h : lib.instant text = some ns) : 'T' ∈ text ∧ Trimmed text := by
  rcases or_eq_some_iff.mp h with hnano | ⟨-, hplain⟩
  · exact lib.rfc3339Nano_shape text ns hnano
  · exact lib.rfc3339_shape text ns hplain

theorem instant_nil : lib.instant [] = none := by
  cases h : lib.instant [] with
  | none => rfl
  | some ns => cases (lib.instant_shape h).1

theorem parseInt_of_instant {ns : Int} (h : lib.instant text = some ns) : parseInt text = none := by
  cases hint : parseInt text with
  | none => rfl
  | some n =>
    rcases (mem_of_parseInt hint).2 'T' (lib.instant_shape h).1 with hdigit | hminus | hplus
    · exact absurd hdigit (by decide)
    · exact absurd hminus (by decide)
    · exact absurd hplus (by decide)

/-! ## What the parsers return -/

theorem flexible_of_ne_nil (h : trimSpace raw ≠ []) :
    lib.parseFlexibleUnixNanos raw =
      match lib.instant (trimSpace raw) with
      | some ns => some (ofInt ns)
      | none =>
        match parseInt (trimSpace raw) with
        | some n => some (normalizeUnixNanos (ofInt n))
        | none =>
          (lib.parseFloat (trimSpace raw)).map fun f => (lib.flexibleScaled f).toInt64 lib.rules := by
  unfold parseFlexibleUnixNanos
  exact if_neg (by rwa [List.isEmpty_iff])

theorem loki_of_ne_nil (now : Int64) (h : trimSpace raw ≠ []) :
    lib.times.parseLokiTimeToUnixNano now raw =
      match lib.instant (trimSpace raw) with
      | some ns => some (ofInt ns)
      | none => lib.times.parseRelative now (trimSpace raw) := by
  have hmap : ((lib.times.rfc3339Nano (trimSpace raw)).or (lib.times.rfc3339 (trimSpace raw))) =
      (lib.instant (trimSpace raw)).map ofInt := by
    rw [instant, map_or]
    rfl
  rw [TimeLib.parseLokiTimeToUnixNano, if_neg h, hmap]
  cases lib.instant (trimSpace raw) <;> rfl

theorem normalizeLokiIntTimeToUnixNano_eq (v : Int64) :
    normalizeLokiIntTimeToUnixNano v = v * loki.unit v := by
  unfold normalizeLokiIntTimeToUnixNano unit abs64
  simp only [mul_ite, mul_one]

theorem parseRelative_of_parseInt (now : Int64) {n : Int} (h : parseInt text = some n) :
    lib.times.parseRelative now text = some (ofInt n * loki.unit (ofInt n)) := by
  have hnumber : lib.times.parseNumber text =
      some (ofInt n * loki.unit (ofInt n)) := by
    rw [TimeLib.parseNumber, h, ← normalizeLokiIntTimeToUnixNano_eq]
  obtain ⟨-, hmem⟩ := mem_of_parseInt h
  have hn : 'n' ∉ text := by
    intro hc
    rcases hmem 'n' hc with hdigit | hminus | hplus
    · exact absurd hdigit (by decide)
    · exact absurd hminus (by decide)
    · exact absurd hplus (by decide)
  unfold TimeLib.parseRelative
  split
  iterate 3 exact absurd mem_cons_self hn
  exact hnumber

theorem parseRelative_of_parseFloat (now : Int64) (hint : parseInt text = none) {f : Float64}
    (h : lib.parseFloat text = some f) :
    lib.times.parseRelative now text = some ((lib.lokiScaled f).toInt64 lib.rules) := by
  have hnumber : lib.times.parseNumber text = some ((lib.lokiScaled f).toInt64 lib.rules) := by
    rw [TimeLib.parseNumber, hint]
    change (lib.parseFloat text).map _ = _
    rw [h]
    rfl
  unfold TimeLib.parseRelative
  split
  · rw [lib.parseFloat_now] at h
    cases h
  · rw [lib.parseFloat_now] at h
    cases h
  · rw [lib.parseFloat_now] at h
    cases h
  · exact hnumber

theorem cold_of_trimSpace_ne (h : trimSpace raw ≠ raw) : lib.parseFlexTimestamp raw = none := by
  have hint : parseInt raw = none := by
    cases hint : parseInt raw with
    | none => rfl
    | some n => exact absurd (trimSpace_of_parseInt hint) h
  have hinstant : lib.instant raw = none := by
    cases hinstant : lib.instant raw with
    | none => rfl
    | some ns => exact absurd (trimSpace_of_trimmed (lib.instant_shape hinstant).2) h
  rw [parseFlexTimestamp, hint, hinstant]
  rfl

end InstantLib

/-! ## Whole instants -/

theorem mul_unit (p : TimeParser) (h : Within64 n) :
    ofInt n * p.unit (ofInt n) = ofInt (n * p.unitInt n) := by
  have hunit : p.unit (ofInt n) = ofInt (p.unitInt n) := by
    rw [← toInt_inj, p.toInt_unit, toInt_ofInt_iff.mpr h, eq_comm, toInt_ofInt_iff]
    unfold unitInt
    cases p <;> (dsimp only; repeat' split) <;> decide
  rw [hunit, ofInt_mul]

theorem same_instant_iff {a b : Int} :
    (ofInt a = ofInt b ∧ some a = some (ofInt a).toInt ∧
      some b = some (ofInt b).toInt) ↔ a = b ∧ Within64 a := by
  constructor
  · rintro ⟨heq, ha, hb⟩
    have ha' := some.inj ha
    have hb' := some.inj hb
    refine ⟨?_, toInt_ofInt_iff.mp ha'.symm⟩
    rw [ha', hb', heq]
  · rintro ⟨rfl, ha⟩
    have := toInt_ofInt_iff.mpr ha
    exact ⟨rfl, by rw [this], by rw [this]⟩

namespace InstantLib

variable (lib : InstantLib) {raw : Text}

theorem agreeOn_iff_of_whole {now : Int64} (accepts : TimeParser → Bool) (d : TimeParser → Int)
    (hparse : ∀ p, lib.parse now p raw = if accepts p then some (ofInt (d p)) else none)
    (hdenoted : ∀ p, lib.denoted p raw = some (d p)) :
    lib.AgreeOn now raw ↔
      ∀ p q, p ≠ q → accepts p → accepts q → d p = d q ∧ Within64 (d p) := by
  constructor
  · intro h p q hpq hp hq
    have hsame := h p q hpq _ _ (by rw [hparse, if_pos hp]) (by rw [hparse, if_pos hq])
    rw [hdenoted, hdenoted] at hsame
    exact same_instant_iff.mp hsame
  · intro h p q hpq a b ha hb
    rw [hparse] at ha hb
    split at ha
    · next hp =>
      split at hb
      · next hq =>
        rw [← some.inj ha, ← some.inj hb, hdenoted, hdenoted]
        exact same_instant_iff.mpr (h p q hpq hp hq)
      · cases hb
    · cases ha

/-- Which parsers accept a time or an integer. -/
def accepts (raw : Text) : TimeParser → Bool
  | .cold => trimSpace raw = raw
  | _ => true

theorem trimSpace_ne_nil_of_instant {ns : Int} (h : lib.instant (trimSpace raw) = some ns) :
    trimSpace raw ≠ [] := by
  intro hnil
  rw [hnil, instant_nil] at h
  cases h

/-- Where the parsers agree on a written instant. -/
theorem agreeOn_iff_of_instant (now : Int64) {ns : Int} (h : lib.instant (trimSpace raw) = some ns) :
    lib.AgreeOn now raw ↔ Within64 ns := by
  have hne := lib.trimSpace_ne_nil_of_instant h
  rw [lib.agreeOn_iff_of_whole (accepts raw) fun _ => ns]
  · constructor
    · intro hall
      exact (hall .flexible .loki (by decide) rfl rfl).2
    · exact fun hns p q _ _ _ => ⟨rfl, hns⟩
  · intro p
    cases p with
    | flexible =>
      change lib.parseFlexibleUnixNanos raw = some _
      rw [lib.flexible_of_ne_nil hne, h]
    | loki =>
      change lib.times.parseLokiTimeToUnixNano now raw = some _
      rw [lib.loki_of_ne_nil now hne, h]
    | cold =>
      change lib.parseFlexTimestamp raw = if decide _ = true then _ else _
      split
      · next htrim =>
        rw [of_decide_eq_true htrim] at h
        rw [parseFlexTimestamp, lib.parseInt_of_instant h, h]
        rfl
      · next htrim => exact lib.cold_of_trimSpace_ne (of_decide_eq_false (Bool.eq_false_iff.mpr htrim))
  · intro p
    rw [denoted]
    simp only [h]

/-- Where the parsers agree on an integer. -/
theorem agreeOn_iff_of_int (now : Int64) {n : Int} (hinstant : lib.instant (trimSpace raw) = none)
    (h : parseInt (trimSpace raw) = some n) :
    lib.AgreeOn now raw ↔ ∀ p q, p ≠ q → accepts raw p → accepts raw q →
      n * p.unitInt n = n * q.unitInt n ∧ Within64 (n * p.unitInt n) := by
  have hne : trimSpace raw ≠ [] := (mem_of_parseInt h).1
  have hn := within64_of_parseInt h
  refine lib.agreeOn_iff_of_whole (accepts raw) (fun p => n * p.unitInt n) ?_ ?_
  · intro p
    cases p with
    | flexible =>
      change lib.parseFlexibleUnixNanos raw = some _
      rw [lib.flexible_of_ne_nil hne, hinstant, h, ← mul_unit _ hn]
      rfl
    | loki =>
      change lib.times.parseLokiTimeToUnixNano now raw = some _
      rw [lib.loki_of_ne_nil now hne, hinstant, ← mul_unit _ hn]
      exact lib.parseRelative_of_parseInt now h
    | cold =>
      change lib.parseFlexTimestamp raw = if decide _ = true then _ else _
      split
      · next htrim =>
        rw [of_decide_eq_true htrim] at h
        rw [parseFlexTimestamp, h, ← mul_unit _ hn]
      · next htrim => exact lib.cold_of_trimSpace_ne (of_decide_eq_false (Bool.eq_false_iff.mpr htrim))
  · intro p
    rw [denoted]
    simp only [hinstant, h]
    rw [p.toInt_unit, toInt_ofInt_iff.mpr hn]

end InstantLib

/-! ## Sizes -/

/-- The unit that a parser with three bounds on the magnitude takes. -/
def UnitCases (bound n unit : Int) : Prop :=
  (n = -9223372036854775808 ∨ -bound < n ∧ n < bound) ∧ unit = 1000000000 ∨
    (-(1000 * bound) < n ∧ n ≤ -bound ∨ bound ≤ n ∧ n < 1000 * bound) ∧ unit = 1000000 ∨
    (-(1000000 * bound) < n ∧ n ≤ -(1000 * bound) ∨ 1000 * bound ≤ n ∧ n < 1000000 * bound) ∧
      unit = 1000 ∨
    n ≠ -9223372036854775808 ∧ (n ≤ -(1000000 * bound) ∨ 1000000 * bound ≤ n) ∧ unit = 1

theorem flexibleUnit_cases (n : Int) : UnitCases 1000000000000 n (flexible.unitInt n) := by
  simp only [UnitCases, unitInt, absInt]
  split_ifs <;> omega

theorem lokiUnit_cases (n : Int) : UnitCases 100000000000 n (loki.unitInt n) := by
  simp only [UnitCases, unitInt, absInt]
  split_ifs <;> omega

theorem coldUnit_cases (n : Int) :
    n ≤ 1000000000000 ∧ cold.unitInt n = 1000000000 ∨
      1000000000000 < n ∧ n ≤ 1000000000000000 ∧ cold.unitInt n = 1000000 ∨
      1000000000000000 < n ∧ n ≤ 1000000000000000000 ∧ cold.unitInt n = 1000 ∨
      1000000000000000000 < n ∧ cold.unitInt n = 1 := by
  simp only [unitInt]
  split_ifs <;> omega

theorem agreedByTwo_iff (hn : Within64 n) :
    (n * flexible.unitInt n = n * loki.unitInt n ∧
      Within64 (n * flexible.unitInt n)) ↔ AgreedByTwo n := by
  obtain ⟨hlow, hhigh⟩ := hn
  unfold AgreedByTwo Within64
  rcases flexibleUnit_cases n with ⟨hf, hflexible⟩ | ⟨hf, hflexible⟩ | ⟨hf, hflexible⟩ |
      ⟨hmin, hf, hflexible⟩ <;>
    rcases lokiUnit_cases n with ⟨hl, hloki⟩ | ⟨hl, hloki⟩ | ⟨hl, hloki⟩ | ⟨-, hl, hloki⟩ <;>
    rw [hflexible, hloki] <;>
    omega

theorem agreedByAll_of_two (hn : Within64 n) :
    AgreedByTwo n ∧ n * flexible.unitInt n = n * cold.unitInt n ↔
      AgreedByAll n := by
  obtain ⟨hlow, hhigh⟩ := hn
  unfold AgreedByTwo AgreedByAll
  rcases flexibleUnit_cases n with ⟨hf, hflexible⟩ | ⟨hf, hflexible⟩ | ⟨hf, hflexible⟩ |
      ⟨hmin, hf, hflexible⟩ <;>
    rcases coldUnit_cases n with ⟨hc, hcold⟩ | ⟨hc, hc', hcold⟩ | ⟨hc, hc', hcold⟩ | ⟨hc, hcold⟩ <;>
    rw [hflexible, hcold] <;>
    omega

/-- The integers that the three parsers scale alike. -/
theorem agreedByAll_iff (hn : Within64 n) :
    (∀ p q : TimeParser, p ≠ q → n * p.unitInt n = n * q.unitInt n ∧ Within64 (n * p.unitInt n)) ↔
      AgreedByAll n := by
  rw [← agreedByAll_of_two hn, ← agreedByTwo_iff hn]
  constructor
  · intro h
    exact ⟨h .flexible .loki (by decide), (h .flexible .cold (by decide)).1⟩
  · rintro ⟨⟨hloki, hrange⟩, hcold⟩ p q -
    have hsame : ∀ r : TimeParser, n * r.unitInt n = n * flexible.unitInt n := by
      intro r
      cases r with
      | flexible => rfl
      | loki => exact hloki.symm
      | cold => exact hcold.symm
    rw [hsame p, hsame q]
    exact ⟨rfl, hrange⟩

/-! ## Floating point numbers -/

namespace InstantLib

variable (lib : InstantLib)

theorem flexibleScaled_finite (q : ℚ) :
    lib.flexibleScaled (.finite q) =
      if 1000000000000000000 ≤ |q| then .finite q
      else if 1000000000000000 ≤ |q| then .finite (lib.rules.round (q * 1000))
      else if 1000000000000 ≤ |q| then .finite (lib.rules.round (q * 1000000))
      else .finite (lib.rules.round (q * 1000000000)) := by
  simp only [flexibleScaled, Float64.absGe, Float64.scale, decide_eq_true_eq]

theorem lokiScaled_finite (q : ℚ) :
    lib.lokiScaled (.finite q) =
      if |q| < 100000000000 then .finite (lib.rules.round (q * 1000000000))
      else if |q| < 100000000000000 then .finite (lib.rules.round (q * 1000000))
      else if |q| < 100000000000000000 then .finite (lib.rules.round (q * 1000))
      else .finite q := by
  simp only [lokiScaled, Float64.absLt, Float64.scale, decide_eq_true_eq]

/-- Both numbers stand for one instant of 64 bits. -/
def SameWhole (f g : Float64) : Prop := ∃ n, f.whole = some n ∧ g.whole = some n ∧ Within64 n

theorem sameWhole_self {q : ℚ} : SameWhole (.finite q) (.finite q) ↔ Within64 (truncate q) := by
  constructor
  · rintro ⟨n, hn, -, hw⟩
    rwa [← some.inj hn] at hw
  · exact fun h => ⟨truncate q, rfl, rfl, h⟩

theorem not_sameWhole_round {q : ℚ} (h : 18446744073709551616 ≤ |q|) (g : Float64) :
    ¬ SameWhole (.finite (lib.rules.round q)) g := by
  rintro ⟨n, hn, -, hw⟩
  rw [← some.inj hn] at hw
  exact not_within64_round lib.rules h hw

theorem not_sameWhole_scaled {q c : ℚ} {size : ℚ} (hc : 0 ≤ c) (hq : size ≤ |q|)
    (hsize : 18446744073709551616 ≤ size * c) (g : Float64) :
    ¬ SameWhole (.finite (lib.rules.round (q * c))) g := by
  refine lib.not_sameWhole_round ?_ g
  rw [abs_mul, abs_of_nonneg hc]
  exact le_trans hsize (mul_le_mul_of_nonneg_right hq hc)

/-- The fractions that two parsers scale alike. -/
theorem sameWhole_iff_agreedFloat (f : Float64) :
    SameWhole (lib.flexibleScaled f) (lib.lokiScaled f) ↔ AgreedFloat lib.rules f := by
  cases f with
  | nan | infinite negative =>
    refine iff_of_false ?_ not_false
    rintro ⟨n, hn, -⟩
    cases hn
  | finite q =>
    rw [flexibleScaled_finite, lokiScaled_finite, AgreedFloat]
    -- the lines that the two parsers draw, from below
    rcases lt_or_ge |q| 100000000000 with h11 | h11
    · rw [if_neg (by linarith), if_neg (by linarith), if_neg (by linarith), if_pos h11, sameWhole_self]
      grind
    rcases lt_or_ge |q| 1000000000000 with h12 | h12
    · rw [if_neg (by linarith), if_neg (by linarith), if_neg (by linarith)]
      refine iff_of_false (lib.not_sameWhole_scaled (by norm_num) h11 (by norm_num) _) ?_
      rintro (⟨h, -⟩ | ⟨⟨h, -⟩, -⟩ | ⟨⟨h, -⟩, -⟩ | ⟨h, -⟩) <;> linarith
    rcases lt_or_ge |q| 100000000000000 with h14 | h14
    · rw [if_neg (by linarith), if_neg (by linarith), if_pos h12, if_neg (by linarith), if_pos h14,
        sameWhole_self]
      grind
    rcases lt_or_ge |q| 1000000000000000 with h15 | h15
    · rw [if_neg (by linarith), if_neg (by linarith), if_pos h12]
      refine iff_of_false (lib.not_sameWhole_scaled (by norm_num) h14 (by norm_num) _) ?_
      rintro (⟨h, -⟩ | ⟨⟨-, h⟩, -⟩ | ⟨⟨h, -⟩, -⟩ | ⟨h, -⟩) <;> linarith
    rcases lt_or_ge |q| 100000000000000000 with h17 | h17
    · rw [if_neg (by linarith), if_pos h15, if_neg (by linarith), if_neg (by linarith), if_pos h17,
        sameWhole_self]
      grind
    rcases lt_or_ge |q| 1000000000000000000 with h18 | h18
    · rw [if_neg (by linarith), if_pos h15]
      refine iff_of_false (lib.not_sameWhole_scaled (by norm_num) h17 (by norm_num) _) ?_
      rintro (⟨h, -⟩ | ⟨⟨-, h⟩, -⟩ | ⟨⟨-, h⟩, -⟩ | ⟨h, -⟩) <;> linarith
    · rw [if_pos h18, if_neg (by linarith), if_neg (by linarith), if_neg (by linarith), sameWhole_self]
      grind

variable {raw : Text}

theorem cold_of_none (hinstant : lib.instant (trimSpace raw) = none)
    (hint : parseInt (trimSpace raw) = none) : lib.parseFlexTimestamp raw = none := by
  by_cases htrim : trimSpace raw = raw
  · rw [htrim] at hinstant hint
    rw [parseFlexTimestamp, hint, hinstant]
    rfl
  · exact lib.cold_of_trimSpace_ne htrim

/-- Where the parsers agree on a fraction. -/
theorem agreeOn_iff_of_float (now : Int64) {f : Float64}
    (hinstant : lib.instant (trimSpace raw) = none) (hint : parseInt (trimSpace raw) = none)
    (h : lib.parseFloat (trimSpace raw) = some f) :
    lib.AgreeOn now raw ↔ SameWhole (lib.flexibleScaled f) (lib.lokiScaled f) := by
  have hne : trimSpace raw ≠ [] := by
    intro hnil
    rw [hnil, lib.parseFloat_nil] at h
    cases h
  have hflexible : lib.parse now .flexible raw = some ((lib.flexibleScaled f).toInt64 lib.rules) := by
    change lib.parseFlexibleUnixNanos raw = _
    rw [lib.flexible_of_ne_nil hne, hinstant, hint, h]
    rfl
  have hloki : lib.parse now .loki raw = some ((lib.lokiScaled f).toInt64 lib.rules) := by
    change lib.times.parseLokiTimeToUnixNano now raw = _
    rw [lib.loki_of_ne_nil now hne, hinstant]
    exact lib.parseRelative_of_parseFloat now hint h
  have hcold : lib.parse now .cold raw = none := lib.cold_of_none hinstant hint
  have hwholeF : lib.denoted .flexible raw = (lib.flexibleScaled f).whole := by
    rw [denoted]
    simp only [hinstant, hint, h, bind_some]
  have hwholeL : lib.denoted .loki raw = (lib.lokiScaled f).whole := by
    rw [denoted]
    simp only [hinstant, hint, h, bind_some]
  constructor
  · intro hall
    obtain ⟨hsame, hF, hL⟩ := hall .flexible .loki (by decide) _ _ hflexible hloki
    rw [hwholeF] at hF
    rw [hwholeL, ← hsame] at hL
    exact ⟨_, hF, hL, within64_toInt _⟩
  · rintro ⟨n, hF, hL, hn⟩
    have hvalueF : (lib.flexibleScaled f).toInt64 lib.rules = ofInt n := by
      rw [Float64.toInt64, hF]
      exact if_pos hn
    have hvalueL : (lib.lokiScaled f).toInt64 lib.rules = ofInt n := by
      rw [Float64.toInt64, hL]
      exact if_pos hn
    rw [hvalueF] at hflexible
    rw [hvalueL] at hloki
    have hn' : some n = some (ofInt n).toInt := by rw [toInt_ofInt_iff.mpr hn]
    intro p q hpq a b ha hb
    have hvalue : ∀ (r : TimeParser) (c : Int64), lib.parse now r raw = some c →
        c = ofInt n ∧ lib.denoted r raw = some c.toInt := by
      intro r c hc
      cases r with
      | flexible =>
        obtain rfl : ofInt n = c := some.inj (hflexible.symm.trans hc)
        exact ⟨rfl, by rw [hwholeF, hF, ← hn']⟩
      | loki =>
        obtain rfl : ofInt n = c := some.inj (hloki.symm.trans hc)
        exact ⟨rfl, by rw [hwholeL, hL, ← hn']⟩
      | cold => cases hcold.symm.trans hc
    obtain ⟨rfl, hda⟩ := hvalue p a ha
    obtain ⟨rfl, hdb⟩ := hvalue q b hb
    exact ⟨rfl, hda, hdb⟩

theorem agreeOn_of_none (now : Int64) (hinstant : lib.instant (trimSpace raw) = none)
    (hint : parseInt (trimSpace raw) = none) (hfloat : lib.parseFloat (trimSpace raw) = none) :
    lib.AgreeOn now raw := by
  have hflexible : lib.parse now .flexible raw = none := by
    change lib.parseFlexibleUnixNanos raw = none
    by_cases hnil : trimSpace raw = []
    · rw [parseFlexibleUnixNanos, if_pos (by rw [hnil]; rfl)]
    · rw [lib.flexible_of_ne_nil hnil, hinstant, hint, hfloat]
      rfl
  have hcold : lib.parse now .cold raw = none := lib.cold_of_none hinstant hint
  intro p q hpq a b ha hb
  cases p with
  | flexible => cases hflexible.symm.trans ha
  | cold => cases hcold.symm.trans ha
  | loki =>
    cases q with
    | flexible => cases hflexible.symm.trans hb
    | cold => cases hcold.symm.trans hb
    | loki => exact absurd rfl hpq

/-- Where the three parsers agree, for every text. -/
theorem agreeOn_iff (now : Int64) (raw : Text) : lib.AgreeOn now raw ↔ lib.Agreed raw := by
  unfold Agreed
  cases hinstant : lib.instant (trimSpace raw) with
  | some ns => exact lib.agreeOn_iff_of_instant now hinstant
  | none =>
    cases hint : parseInt (trimSpace raw) with
    | some n =>
      rw [lib.agreeOn_iff_of_int now hinstant hint]
      have hn := within64_of_parseInt hint
      dsimp only
      split
      · next htrim =>
        rw [← agreedByAll_iff hn]
        have hall : ∀ p, accepts raw p = true := by
          intro p
          cases p with
          | cold => exact decide_eq_true htrim
          | flexible | loki => rfl
        exact ⟨fun h p q hpq => h p q hpq (hall p) (hall q), fun h p q hpq _ _ => h p q hpq⟩
      · next htrim =>
        rw [← agreedByTwo_iff hn]
        have hcold : ¬ accepts raw .cold = true := by
          rw [accepts, decide_eq_true_eq]
          exact htrim
        constructor
        · exact fun h => h .flexible .loki (by decide) rfl rfl
        · intro h p q hpq hp hq
          cases p with
          | cold => exact absurd hp hcold
          | flexible =>
            cases q with
            | cold => exact absurd hq hcold
            | flexible => exact absurd rfl hpq
            | loki => exact h
          | loki =>
            cases q with
            | cold => exact absurd hq hcold
            | loki => exact absurd rfl hpq
            | flexible => exact ⟨h.1.symm, h.1 ▸ h.2⟩
    | none =>
      cases hfloat : lib.parseFloat (trimSpace raw) with
      | some f =>
        rw [lib.agreeOn_iff_of_float now hinstant hint hfloat]
        exact lib.sameWhole_iff_agreedFloat f
      | none => exact iff_of_true (lib.agreeOn_of_none now hinstant hint hfloat) trivial

end InstantLib

/-! ## Bounds of a range -/

variable {n : Int}

theorem not_dvd_of_units (p o : Int) {c l : Int} (hn : n ≠ 0) (hp : 0 < p)
    (hdiff : c - l = p * o) (ho : ¬ (2 : Int) ∣ o) (hlow : -18446744073709551616 < n * p)
    (hhigh : n * p < 18446744073709551616) :
    ¬ (18446744073709551616 : Int) ∣ n * c - n * l := by
  intro h
  have hpow : (2 : Int) ^ 64 ∣ n * p * o := by
    rw [Int.mul_assoc, ← hdiff, Int.mul_sub]
    exact h
  have hzero := Int.eq_zero_of_abs_lt_dvd (Int.prime_two.pow_dvd_of_dvd_mul_right 64 ho hpow)
    (abs_lt.mpr ⟨hlow, hhigh⟩)
  exact mul_ne_zero hn hp.ne' hzero

/-- Outside the sizes at which the units are the same, their difference has a small power of two. -/
theorem units_differ (hn : Within64 n) (hmin : n ≠ -9223372036854775808)
    (h : ¬ (-100000000000 < n ∧ n < 100000000000 ∨ 1000000000000 < n ∧ n < 100000000000000 ∨
      1000000000000000 < n ∧ n < 100000000000000000 ∨ 1000000000000000000 < n)) :
    ¬ (18446744073709551616 : Int) ∣ n * cold.unitInt n - n * loki.unitInt n := by
  obtain ⟨hlow, hhigh⟩ := hn
  rcases coldUnit_cases n with ⟨hc, hcold⟩ | ⟨hc, hc', hcold⟩ | ⟨hc, hc', hcold⟩ | ⟨hc, hcold⟩
  · rcases lokiUnit_cases n with ⟨hl, hloki⟩ | ⟨hl, hloki⟩ | ⟨hl, hloki⟩ | ⟨-, hl, hloki⟩
    · omega
    · apply not_dvd_of_units 64 15609375 <;> omega
    · apply not_dvd_of_units 8 124999875 <;> omega
    · apply not_dvd_of_units 1 999999999 <;> omega
  · have hloki : loki.unitInt n = 1000 := by
      rcases lokiUnit_cases n with ⟨hl, -⟩ | ⟨hl, -⟩ | ⟨-, hloki⟩ | ⟨-, hl, -⟩ <;> omega
    apply not_dvd_of_units 8 124875 <;> omega
  · have hloki : loki.unitInt n = 1 := by
      rcases lokiUnit_cases n with ⟨hl, -⟩ | ⟨hl, -⟩ | ⟨hl, -⟩ | ⟨-, -, hloki⟩ <;> omega
    apply not_dvd_of_units 1 999 <;> omega
  · omega

/-- At the sizes at which they are the same, a number that is not zero has a product that is not. -/
theorem units_agree (hn : Within64 n) (h : SameUnit n) : cold.unitInt n = loki.unitInt n ∧
    ¬ (18446744073709551616 : Int) ∣ n * cold.unitInt n - n * 0 := by
  obtain ⟨hlow, hhigh⟩ := hn
  obtain ⟨hpos, hsize⟩ := h
  have hsame : cold.unitInt n = loki.unitInt n := by
    rcases coldUnit_cases n with ⟨hc, hcold⟩ | ⟨hc, hc', hcold⟩ | ⟨hc, hc', hcold⟩ | ⟨hc, hcold⟩ <;>
      rcases lokiUnit_cases n with ⟨hl, hloki⟩ | ⟨hl, hloki⟩ | ⟨hl, hloki⟩ | ⟨-, hl, hloki⟩ <;>
      omega
  refine ⟨hsame, ?_⟩
  rcases coldUnit_cases n with ⟨hc, hcold⟩ | ⟨hc, hc', hcold⟩ | ⟨hc, hc', hcold⟩ | ⟨hc, hcold⟩
  · apply not_dvd_of_units 512 1953125 <;> omega
  · apply not_dvd_of_units 64 15625 <;> omega
  · apply not_dvd_of_units 8 125 <;> omega
  · apply not_dvd_of_units 1 1 <;> omega

theorem sameUnit_iff (hn : Within64 n) :
    (ofInt (n * cold.unitInt n) ≠ 0 ∧
      ofInt (n * cold.unitInt n) = ofInt (n * loki.unitInt n)) ↔
      SameUnit n := by
  have hzero : (0 : Int64) = ofInt (n * 0) := by
    rw [Int.mul_zero]
    rfl
  rw [Ne, hzero, ofInt_eq_iff, ofInt_eq_iff]
  constructor
  · rintro ⟨hne, heq⟩
    have hpos : n ≠ 0 := by
      rintro rfl
      exact hne ⟨0, by decide⟩
    have hmin : n ≠ -9223372036854775808 := by
      rintro rfl
      exact hne ⟨-500000000, by decide⟩
    refine ⟨hpos, ?_⟩
    by_contra hsize
    exact units_differ hn hmin hsize heq
  · intro h
    obtain ⟨hsame, hne⟩ := units_agree hn h
    refine ⟨hne, ?_⟩
    rw [hsame, Int.sub_self]
    exact Int.dvd_zero _

namespace InstantLib

variable (lib : InstantLib)

/-- The cold path takes a bound of the windowed path and not a default. -/
theorem coldBound_iff {now : Int64} {raw : Text} {ns : Int64}
    (h : lib.times.parseLokiTimeToUnixNano now raw = some ns) :
    (lib.coldBound raw ≠ 0 ∧ lib.coldBound raw = ns) ↔ lib.SameBound raw := by
  unfold SameBound
  cases hinstant : lib.instant raw with
  | some t =>
    have htrim : trimSpace raw = raw := trimSpace_of_trimmed (lib.instant_shape hinstant).2
    have hne : raw ≠ [] := ne_nil_of_mem (lib.instant_shape hinstant).1
    have hcold : lib.coldBound raw = ofInt t := by
      rw [coldBound, if_neg (by rwa [List.isEmpty_iff]), parseFlexTimestamp,
        lib.parseInt_of_instant hinstant, hinstant]
      rfl
    rw [lib.loki_of_ne_nil now (by rwa [htrim]), htrim, hinstant] at h
    rw [hcold]
    exact ⟨fun hsame => hsame.1, fun hzero => ⟨hzero, some.inj h⟩⟩
  | none =>
    cases hint : parseInt raw with
    | some n =>
      have htrim := trimSpace_of_parseInt hint
      have hne := (mem_of_parseInt hint).1
      have hn := within64_of_parseInt hint
      have hcold : lib.coldBound raw = ofInt (n * cold.unitInt n) := by
        rw [coldBound, if_neg (by rwa [List.isEmpty_iff]), parseFlexTimestamp, hint, ← mul_unit _ hn]
        rfl
      rw [lib.loki_of_ne_nil now (by rwa [htrim]), htrim, hinstant] at h
      have hloki := (lib.parseRelative_of_parseInt now hint).symm.trans h
      rw [hcold, ← some.inj hloki, mul_unit _ hn]
      exact sameUnit_iff hn
    | none =>
      refine iff_of_false ?_ not_false
      rintro ⟨hzero, -⟩
      refine hzero ?_
      unfold coldBound
      split
      · rfl
      · rw [parseFlexTimestamp, hint, hinstant]
        rfl

theorem forall_default_iff {bound ns : Int64} {f : Int64 → Int64} (hf : ∃ a b, f a ≠ f b) :
    (∀ now, (if bound = 0 then f now else bound) = ns) ↔ bound ≠ 0 ∧ bound = ns := by
  constructor
  · intro h
    have hbound : bound ≠ 0 := by
      intro hzero
      obtain ⟨a, b, hab⟩ := hf
      have ha := h a
      have hb := h b
      rw [if_pos hzero] at ha hb
      exact hab (ha.trans hb.symm)
    have hns := h 0
    rw [if_neg hbound] at hns
    exact ⟨hbound, hns⟩
  · rintro ⟨hbound, hns⟩ now
    rw [if_neg hbound, hns]

/-- The two readings of a range agree at every clock exactly when they agree on both bounds. -/
theorem sameRange_iff {nowStart nowEnd : Int64} {startRaw endRaw : Text} {startNs endNs : Int64}
    (h : lib.parseLokiTimeRangeToUnixNano nowStart nowEnd startRaw endRaw = some (startNs, endNs)) :
    (∀ nowStart' nowEnd',
      lib.parseTimeRangeFromRequest nowStart' nowEnd' startRaw endRaw = (startNs, endNs)) ↔
      lib.SameBound startRaw ∧ lib.SameBound endRaw := by
  unfold parseLokiTimeRangeToUnixNano at h
  split at h
  · next startNs' endNs' hstart hend =>
    split at h
    · cases h
    · cases h
      rw [← lib.coldBound_iff hstart, ← lib.coldBound_iff hend,
        ← forall_default_iff (f := fun now => now - 3600000000000) ⟨0, 1, by decide⟩,
        ← forall_default_iff (f := fun now => now) ⟨0, 1, by decide⟩]
      simp only [parseTimeRangeFromRequest, Prod.mk.injEq, forall_and, forall_const]
  · cases h

end InstantLib

/-- The parsers agree on a parameter exactly when its size lies where they take one unit and the
product has 64 bits; and the cold path queries the range of the windowed path exactly when both
bounds are plain integers or times that are not zero and that both take for the same unit. -/
theorem time_parsers_agree_iff (lib : InstantLib) :
    (∀ now raw, lib.AgreeOn now raw ↔ lib.Agreed raw) ∧
    ∀ nowStart nowEnd startRaw endRaw startNs endNs,
      lib.parseLokiTimeRangeToUnixNano nowStart nowEnd startRaw endRaw = some (startNs, endNs) →
      ((∀ nowStart' nowEnd',
        lib.parseTimeRangeFromRequest nowStart' nowEnd' startRaw endRaw = (startNs, endNs)) ↔
        lib.SameBound startRaw ∧ lib.SameBound endRaw) :=
  ⟨lib.agreeOn_iff, fun _ _ _ _ _ _ h => lib.sameRange_iff h⟩

/-- A library that knows one decimal. -/
def oneDecimal : InstantLib where
  rfc3339Nano _ := none
  rfc3339 _ := none
  parseDuration _ := none
  parseFloat text := if text = ['1', '.', '5'] then some (.finite (3 / 2)) else none
  rules :=
    { round := id
      indefinite := fun _ => 0
      round_mono := monotone_id
      round_top := rfl
      round_bottom := rfl }
  rfc3339Nano_shape _ _ h := by cases h
  rfc3339_shape _ _ h := by cases h
  parseFloat_nil := rfl
  parseFloat_now text := if_neg (by simp)

theorem time_parsers_agree_on_seconds :
    oneDecimal.AgreeOn 0 ['9'] ∧
      ∀ nowStart nowEnd, oneDecimal.parseTimeRangeFromRequest nowStart nowEnd ['8'] ['9'] =
        (8000000000, 9000000000) := by
  have hagree := time_parsers_agree_iff oneDecimal
  refine ⟨(hagree.1 0 ['9']).mpr (.inl (by decide)), ?_⟩
  exact (hagree.2 0 0 ['8'] ['9'] 8000000000 9000000000 (by decide +kernel)).mpr
    ⟨⟨by decide, .inl (by decide)⟩, ⟨by decide, .inl (by decide)⟩⟩

/-- A million million is seconds for the cold path and milliseconds for the others; a hundred
thousand million is milliseconds for one parser and seconds for the others; a decimal and a zero
are no bounds for the cold path. -/
theorem time_parsers_disagree :
    (oneDecimal.parse 0 .loki "1000000000000".toList = some 1000000000000000000 ∧
      oneDecimal.parse 0 .cold "1000000000000".toList = some 3875820019684212736) ∧
    (oneDecimal.parse 0 .loki "100000000000".toList = some 100000000000000000 ∧
      oneDecimal.parse 0 .flexible "100000000000".toList = some 7766279631452241920) ∧
    (oneDecimal.parseLokiTimeRangeToUnixNano 7 7 ['0'] ['1', '.', '5'] = some (0, 1500000000) ∧
      oneDecimal.parseTimeRangeFromRequest 7 7 ['0'] ['1', '.', '5'] = (-3599999999993, 7)) := by
  decide +kernel

end LokiVlProxy.Proxy
