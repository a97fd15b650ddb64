/-
  Foundation/ShortDecimal.lean --- floating-point numbers by their shortest decimals.

  A finite float64 is given by the shortest decimal that reads back as it; different numbers
  have different shortest decimals and are ordered as these are.  From seven digits on, `%v`
  prints a whole number in the exponent form and drops the zeros at its end.
-/
import LokiVlProxy.Foundation.Text
import Mathlib.Data.Nat.Digits.Lemmas
import Mathlib.Data.String.Basic

namespace LokiVlProxy.Foundation

open List

instance instNeZeroTen : NeZero (10 : Nat) := ⟨Nat.succ_ne_zero 9⟩

/-- The number `0.d₁d₂… · 10^point`, with a sign; zero has no digits. -/
structure ShortDecimal where
  neg : Bool
  digits : List (Fin 10)
  point : Int
  head_ne : digits.head? ≠ some 0
  last_ne : digits.getLast? ≠ some 0
  point_of_nil : digits = [] → point = 0
  deriving DecidableEq

namespace ShortDecimal

/-- The whole number that digits stand for, the most significant one first. -/
def digitsValue : List (Fin 10) → Nat
  | [] => 0
  | k :: ks => k.val * 10 ^ ks.length + digitsValue ks

/-- The number itself. -/
def value (d : ShortDecimal) : Rat :=
  (if d.neg then -1 else 1) * digitsValue d.digits * (10 : Rat) ^ (d.point - d.digits.length)

def digitChar (k : Fin 10) : Char := Char.ofNat (48 + k)

variable (ks : List (Fin 10))

def digitsText : Text := ks.map digitChar

/-- A whole number in decimal; nothing for zero. -/
def natText (n : Nat) : Text := (Nat.digits 10 n).reverse.map fun k => Char.ofNat (48 + k)

/-- The exponent, with a sign and at least two digits. -/
def exponentText (e : Int) : Text :=
  (if e < 0 then '-' else '+') :: (if e.natAbs < 10 then '0' :: Char.ofNat (48 + e.natAbs) :: []
    else natText e.natAbs)

/-- The digits with the point behind the first one. -/
def pointedText : List (Fin 10) → Text
  | [] => []
  | [k] => [digitChar k]
  | k :: k' :: ks => digitChar k :: '.' :: digitsText (k' :: ks)

/-- The exponent form. -/
def formatE (d : ShortDecimal) : Text := pointedText d.digits ++ 'e' :: exponentText (d.point - 1)

/-- The digits before the point, in the positional form. -/
def wholePart (d : ShortDecimal) : Text :=
  if 0 < d.point then
    digitsText (d.digits.take d.point.toNat) ++
      List.replicate (d.point.toNat - d.digits.length) '0'
  else ['0']

/-- The digits behind the point, in the positional form. -/
def fractionPart (d : ShortDecimal) : Text :=
  if 0 < d.point then digitsText (d.digits.drop d.point.toNat)
  else List.replicate (-d.point).toNat '0' ++ digitsText d.digits

/-- The positional form. -/
def formatF (d : ShortDecimal) : Text :=
  d.wholePart ++ if d.fractionPart = [] then [] else '.' :: d.fractionPart

/-- Whether the exponent form is used. -/
def usesExponent (d : ShortDecimal) : Bool := d.point - 1 < -4 || d.point - 1 ≥ 6

/-- The text without its sign. -/
def unsigned (d : ShortDecimal) : Text := if d.usesExponent then d.formatE else d.formatF

/-- `%v`, or `%g`. -/
def formatG (d : ShortDecimal) : Text := (if d.neg then ['-'] else []) ++ d.unsigned

/-! ## Reading the digits back -/

theorem digitChar_injective {j k : Fin 10} (h : digitChar j = digitChar k) : j = k := by
  revert j k
  decide

theorem digitsText_injective {js ks : List (Fin 10)} (h : digitsText js = digitsText ks) :
    js = ks :=
  map_injective_iff.mpr (fun _ _ => digitChar_injective) h

theorem digitChar_ne (k : Fin 10) :
    digitChar k ≠ '-' ∧ digitChar k ≠ '.' ∧ digitChar k ≠ 'e' ∧ (digitChar k = '0' → k = 0) := by
  revert k
  decide

theorem notMem_digitsText {c : Char} (hc : ∀ k, digitChar k ≠ c) (ks : List (Fin 10)) :
    c ∉ digitsText ks := by
  intro h
  obtain ⟨k, -, hk⟩ := mem_map.mp h
  exact hc k hk

/-- The number a text of digits stands for. -/
def textValue (s : Text) : Nat := s.foldl (fun n c => 10 * n + (c.toNat - 48)) 0

theorem toNat_digit {k : Nat} (hk : k < 10) : (Char.ofNat (48 + k)).toNat - 48 = k := by
  have h : ∀ k < 10, (Char.ofNat (48 + k)).toNat - 48 = k := by decide
  exact h k hk

/-- A value that takes one digit more as ten times itself and the digit reads `Nat.digits`. -/
theorem value_digits {α : Type} {value : List α → Nat} {digit : Nat → α} (hnil : value [] = 0)
    (hconcat : ∀ ds, ∀ k < 10, value (ds ++ [digit k]) = 10 * value ds + k) (n : Nat) :
    value ((Nat.digits 10 n).reverse.map digit) = n := by
  have fold : ∀ ks : List Nat, (∀ k ∈ ks, k < 10) →
      value (ks.reverse.map digit) = Nat.ofDigits 10 ks := by
    intro ks hks
    induction ks with
    | nil => exact hnil
    | cons k ks ih =>
      rw [reverse_cons, map_append, map_singleton, hconcat _ k (hks k mem_cons_self),
        ih fun k hk => hks k (mem_cons_of_mem _ hk), Nat.ofDigits_cons, Nat.add_comm]
  rw [fold _ fun k hk => Nat.digits_lt_base (by omega) hk, Nat.ofDigits_digits]

theorem textValue_natText (n : Nat) : textValue (natText n) = n :=
  value_digits rfl (fun ds k hk => by simp [textValue, toNat_digit hk]) n

theorem exponentText_injective {e f : Int} (h : exponentText e = exponentText f) : e = f := by
  have hvalue : ∀ n : Nat, textValue (if n < 10 then '0' :: Char.ofNat (48 + n) :: []
      else natText n) = n := by
    intro n
    split
    · next hn => simpa [textValue] using toNat_digit hn
    · exact textValue_natText n
  obtain ⟨hsign, habs⟩ := cons.inj h
  have habs := congrArg textValue habs
  rw [hvalue, hvalue] at habs
  have hneg : e < 0 ↔ f < 0 := by
    by_cases he : e < 0 <;> by_cases hf : f < 0 <;> simp [he, hf] at hsign ⊢
  omega

theorem filter_pointedText :
    (pointedText ks).filter (· ≠ '.') = digitsText ks := by
  have hall : (digitsText ks).filter (· ≠ '.') = digitsText ks := by
    apply filter_eq_self.mpr
    intro c hc
    have hne : c ≠ '.' := by
      rintro rfl
      exact notMem_digitsText (fun k => (digitChar_ne k).2.1) ks hc
    simpa using hne
  match ks with
  | [] => rfl
  | [k] => exact hall
  | k :: k' :: ks =>
    have hk := (digitChar_ne k).2.1
    rw [digitsText, map_cons, filter_cons_of_pos (by simpa using hk)] at hall
    rw [pointedText, filter_cons_of_pos (by simpa using hk), filter_cons_of_neg (by simp)]
    exact hall

theorem notMem_pointedText : 'e' ∉ pointedText ks := by
  intro h
  have hmem : 'e' ∈ (pointedText ks).filter (· ≠ '.') := mem_filter.mpr ⟨h, rfl⟩
  rw [filter_pointedText] at hmem
  exact notMem_digitsText (fun k => (digitChar_ne k).2.2.1) ks hmem

variable {d e : ShortDecimal}

/-- The exponent form determines the digits and the point. -/
theorem formatE_injective (h : d.formatE = e.formatE) :
    d.digits = e.digits ∧ d.point = e.point := by
  obtain ⟨hdigits, hexponent⟩ := append_cons_inj_of_notMem (notMem_pointedText d.digits)
    (notMem_pointedText e.digits) h
  constructor
  · apply digitsText_injective
    rw [← filter_pointedText, hdigits, filter_pointedText]
  · have := exponentText_injective hexponent
    omega

theorem notMem_wholePart {c : Char} (hc : ∀ k, digitChar k ≠ c) (hzero : c ≠ '0')
    (d : ShortDecimal) : c ∉ d.wholePart := by
  unfold wholePart
  split
  · intro h
    rcases mem_append.mp h with h | h
    · exact notMem_digitsText hc _ h
    · exact hzero (eq_of_mem_replicate h)
  · simpa using hzero

theorem notMem_fractionPart {c : Char} (hc : ∀ k, digitChar k ≠ c) (hzero : c ≠ '0')
    (d : ShortDecimal) : c ∉ d.fractionPart := by
  unfold fractionPart
  split
  · exact notMem_digitsText hc _
  · intro h
    rcases mem_append.mp h with h | h
    · exact hzero (eq_of_mem_replicate h)
    · exact notMem_digitsText hc _ h

/-- The plain form determines the part before the point and the part after it. -/
theorem parts_of_formatF (h : d.formatF = e.formatF) :
    d.wholePart = e.wholePart ∧ d.fractionPart = e.fractionPart := by
  have hd := notMem_wholePart (fun k => (digitChar_ne k).2.1) (by decide) d
  have he := notMem_wholePart (fun k => (digitChar_ne k).2.1) (by decide) e
  unfold formatF at h
  split at h
  · next hdnil =>
    split at h
    · next henil => exact ⟨by simpa using h, hdnil.trans henil.symm⟩
    · rw [append_nil] at h
      exact absurd (h ▸ mem_append_right _ mem_cons_self) hd
  · split at h
    · rw [append_nil] at h
      exact absurd (h ▸ mem_append_right _ mem_cons_self) he
    · exact append_cons_inj_of_notMem hd he h

theorem head?_digitsText (d : ShortDecimal) : (digitsText d.digits).head? ≠ some '0' := by
  intro h
  obtain ⟨k, hk, hzero⟩ := Option.map_eq_some_iff.mp ((head?_map).symm.trans h)
  exact d.head_ne (((digitChar_ne k).2.2.2 hzero) ▸ hk)

theorem getLast?_digitsText (d : ShortDecimal) : (digitsText d.digits).getLast? ≠ some '0' := by
  intro h
  obtain ⟨k, hk, hzero⟩ := Option.map_eq_some_iff.mp ((getLast?_map).symm.trans h)
  exact d.last_ne (((digitChar_ne k).2.2.2 hzero) ▸ hk)

theorem wholePart_of_nonpos (h : d.point ≤ 0) : d.wholePart = ['0'] :=
  if_neg (by omega)

theorem digits_ne_nil_of_pos (h : 0 < d.point) : d.digits ≠ [] := by
  intro hnil
  have := d.point_of_nil hnil
  omega

theorem wholePart_ne_zero (h : 0 < d.point) : d.wholePart ≠ ['0'] := by
  have hhead := head?_digitsText d
  obtain ⟨k, ks, hdigits⟩ := exists_cons_of_ne_nil (digits_ne_nil_of_pos h)
  obtain ⟨n, hn⟩ : ∃ n, d.point.toNat = n + 1 := ⟨d.point.toNat - 1, by omega⟩
  intro hzero
  apply hhead
  have hfirst := congrArg List.head? hzero
  rw [wholePart, if_pos h, hdigits, hn] at hfirst
  rw [hdigits]
  exact hfirst

theorem length_wholePart (h : 0 < d.point) : d.wholePart.length = d.point.toNat := by
  rw [wholePart, if_pos h, digitsText]
  simp only [length_append, length_map, length_take, length_replicate]
  omega

theorem rdropWhile_append_zeros (d : ShortDecimal) (n : Nat) :
    (digitsText d.digits ++ List.replicate n '0').rdropWhile (· = '0') = digitsText d.digits := by
  induction n with
  | zero =>
    rw [replicate_zero, append_nil, rdropWhile_eq_self_iff]
    intro hne hzero
    exact getLast?_digitsText d ((getLast?_eq_getLast_of_ne_nil hne).trans
      (congrArg some (of_decide_eq_true hzero)))
  | succ n ih =>
    rw [replicate_succ', ← append_assoc, rdropWhile_concat_pos _ _ _ (by simp), ih]

theorem dropWhile_zeros_append (d : ShortDecimal) (n : Nat) :
    (List.replicate n '0' ++ digitsText d.digits).dropWhile (· = '0') = digitsText d.digits := by
  induction n with
  | zero =>
    rw [replicate_zero, nil_append, dropWhile_eq_self_iff]
    intro hpos hzero
    exact head?_digitsText d ((head?_eq_getElem?).trans
      ((getElem?_eq_getElem hpos).trans (congrArg some (of_decide_eq_true hzero))))
  | succ n ih =>
    rw [replicate_succ, cons_append, dropWhile_cons_of_pos (by simp), ih]

theorem parts_of_pos (h : 0 < d.point) :
    d.wholePart ++ d.fractionPart =
      digitsText d.digits ++ List.replicate (d.point.toNat - d.digits.length) '0' := by
  rw [wholePart, fractionPart, if_pos h, if_pos h]
  by_cases hshort : d.digits.length ≤ d.point.toNat
  · rw [take_of_length_le hshort, drop_of_length_le hshort]
    exact append_nil _
  · have hpad : d.point.toNat - d.digits.length = 0 := by omega
    simp [hpad, digitsText]

theorem fractionPart_of_nonpos (h : d.point ≤ 0) :
    d.fractionPart = List.replicate (-d.point).toNat '0' ++ digitsText d.digits :=
  if_neg (by omega)

/-- The two parts of the positional form give the digits and the place of the point. -/
theorem digits_of_parts (hwhole : d.wholePart = e.wholePart)
    (hfraction : d.fractionPart = e.fractionPart) : d.digits = e.digits ∧ d.point = e.point := by
  by_cases hd : 0 < d.point <;> by_cases he : 0 < e.point
  · have hparts : d.wholePart ++ d.fractionPart = e.wholePart ++ e.fractionPart := by
      rw [hwhole, hfraction]
    constructor
    · apply digitsText_injective
      rw [← rdropWhile_append_zeros d, ← parts_of_pos hd, hparts, parts_of_pos he,
        rdropWhile_append_zeros]
    · have hlength := congrArg List.length hwhole
      rw [length_wholePart hd, length_wholePart he] at hlength
      omega
  · exact absurd (hwhole.trans (wholePart_of_nonpos (by omega))) (wholePart_ne_zero hd)
  · exact absurd (hwhole.symm.trans (wholePart_of_nonpos (by omega))) (wholePart_ne_zero he)
  · rw [fractionPart_of_nonpos (by omega), fractionPart_of_nonpos (by omega)] at hfraction
    have hdigits : d.digits = e.digits := by
      apply digitsText_injective
      rw [← dropWhile_zeros_append d, hfraction, dropWhile_zeros_append]
    refine ⟨hdigits, ?_⟩
    have hlength := congrArg List.length hfraction
    simp only [length_append, length_replicate, hdigits] at hlength
    omega

/-! ## Different numbers are printed differently -/

theorem mem_formatE (d : ShortDecimal) : 'e' ∈ d.formatE :=
  mem_append_right _ mem_cons_self

theorem notMem_formatF (d : ShortDecimal) : 'e' ∉ d.formatF := by
  have hwhole := notMem_wholePart (fun k => (digitChar_ne k).2.2.1) (by decide) d
  have hfraction := notMem_fractionPart (fun k => (digitChar_ne k).2.2.1) (by decide) d
  unfold formatF
  intro h
  rcases mem_append.mp h with h | h
  · exact hwhole h
  · split at h
    · exact absurd h not_mem_nil
    · rcases mem_cons.mp h with h | h
      · exact absurd h (by decide)
      · exact hfraction h

/-- The text without its sign determines the digits and the point. -/
theorem digits_of_unsigned (h : d.unsigned = e.unsigned) :
    d.digits = e.digits ∧ d.point = e.point := by
  unfold unsigned at h
  split at h
  · split at h
    · exact formatE_injective h
    · exact absurd (h ▸ mem_formatE d) (notMem_formatF e)
  · split at h
    · exact absurd (h ▸ mem_formatE e) (notMem_formatF d)
    · obtain ⟨hwhole, hfraction⟩ := parts_of_formatF h
      exact digits_of_parts hwhole hfraction

theorem wholePart_ne_nil (d : ShortDecimal) : d.wholePart ≠ [] := by
  by_cases h : 0 < d.point
  · apply ne_nil_of_length_pos
    rw [length_wholePart h]
    omega
  · simp [wholePart_of_nonpos (not_lt.mp h)]

theorem head?_unsigned (d : ShortDecimal) : d.unsigned.head? ≠ some '-' := by
  unfold unsigned
  split
  · unfold formatE
    fun_cases pointedText d.digits with
    | case1 => simp
    | case2 k | case3 k k' ks => simpa using (digitChar_ne k).1
  · obtain ⟨c, cs, hwhole⟩ := exists_cons_of_ne_nil (wholePart_ne_nil d)
    have hnot := notMem_wholePart (fun k => (digitChar_ne k).1) (by decide) d
    rw [formatF, hwhole]
    rintro h
    exact hnot (hwhole ▸ (Option.some.inj h) ▸ mem_cons_self)

/-- Two numbers with one text are one number. -/
theorem formatG_injective : Function.Injective formatG := by
  intro d e h
  have hneg : d.neg = e.neg := by
    have hhead : ∀ f : ShortDecimal, f.formatG.head? = some '-' ↔ f.neg = true := by
      intro f
      have hf := head?_unsigned f
      unfold formatG
      cases f.neg with
      | true => simp
      | false => simpa using hf
    rw [Bool.eq_iff_iff, ← hhead, ← hhead, h]
  have hunsigned : d.unsigned = e.unsigned := by
    rw [formatG, formatG, hneg] at h
    exact append_cancel_left h
  obtain ⟨hdigits, hpoint⟩ := digits_of_unsigned hunsigned
  cases d
  cases e
  simp_all

/-! ## Digits of whole numbers -/

/-- The digits without the zeros at the end. -/
def trimZeros : List (Fin 10) → List (Fin 10)
  | [] => []
  | k :: ks =>
      match trimZeros ks with
      | [] => if k = 0 then [] else [k]
      | k' :: ks' => k :: k' :: ks'

/-- All digits of a number. -/
def natDigits (n : Nat) : List (Fin 10) := (Nat.digits 10 n).reverse.map (Fin.ofNat 10)

theorem digitsValue_lt (ks : List (Fin 10)) : digitsValue ks < 10 ^ ks.length := by
  induction ks with
  | nil => simp [digitsValue]
  | cons k ks ih =>
    rw [digitsValue, length_cons, pow_succ]
    have hk : (k : Nat) + 1 ≤ 10 := k.isLt
    calc (k : Nat) * 10 ^ ks.length + digitsValue ks < (k + 1) * 10 ^ ks.length := by
          rw [add_mul, one_mul]
          omega
      _ ≤ 10 * 10 ^ ks.length := Nat.mul_le_mul_right _ hk
      _ = 10 ^ ks.length * 10 := mul_comm _ _

/-- All the digits are zeros exactly when the value is zero. -/
theorem trimZeros_eq_nil_iff (ks : List (Fin 10)) : trimZeros ks = [] ↔ digitsValue ks = 0 := by
  induction ks with
  | nil => simp [trimZeros, digitsValue]
  | cons k ks ih =>
    rw [digitsValue, trimZeros]
    have hpos : 0 < 10 ^ ks.length := by positivity
    split
    · next h =>
      rw [ih.mp h]
      by_cases hk : k = 0 <;> simp [hk]
    · next k' ks' h =>
      have hne : digitsValue ks ≠ 0 := fun h0 => by simp [ih.mpr h0] at h
      simp [hne]

variable {k : Fin 10} {ks : List (Fin 10)}

theorem trimZeros_cons_of_ne (h : digitsValue (k :: ks) ≠ 0) :
    trimZeros (k :: ks) = k :: trimZeros ks := by
  rw [digitsValue] at h
  rw [trimZeros]
  split
  · next hnil =>
    have hk : k ≠ 0 := by
      rintro rfl
      rw [(trimZeros_eq_nil_iff ks).mp hnil] at h
      simp at h
    rw [if_neg hk, hnil]
  · next k' ks' hks => rw [hks]

theorem trimZeros_cons_of_zero (h : digitsValue (k :: ks) = 0) : trimZeros (k :: ks) = [] :=
  (trimZeros_eq_nil_iff _).mpr h

/-! ## Texts of trimmed digits -/

theorem digitChar_lt_iff (j k : Fin 10) : digitChar j < digitChar k ↔ j < k := by
  revert j k
  decide

theorem digitChar_lt_e (k : Fin 10) : digitChar k < 'e' := by
  revert k
  decide

/-- The printed digits, with the letter behind them. -/
def lettered (exponent : Text) (ks : List (Fin 10)) : Text := digitsText ks ++ 'e' :: exponent

variable (exponent : Text) (n : Nat)

/-- Digit texts are compared digit by digit. -/
theorem lettered_cons_lt_iff (j k : Fin 10) (js ks : List (Fin 10)) :
    lettered exponent (j :: js) < lettered exponent (k :: ks) ↔
      j < k ∨ j = k ∧ lettered exponent js < lettered exponent ks := by
  have hchar : digitChar j = digitChar k ↔ j = k := ⟨digitChar_injective, congrArg digitChar⟩
  exact cons_lt_cons_iff.trans (by rw [digitChar_lt_iff, hchar]; rfl)

theorem not_lettered_nil_lt (k : Fin 10) (ks : List (Fin 10)) :
    ¬ lettered exponent [] < lettered exponent (k :: ks) := by
  intro h
  rcases cons_lt_cons_iff.mp h with h | ⟨h, -⟩
  · exact absurd h (digitChar_lt_e k).asymm
  · exact absurd h (digitChar_lt_e k).ne'

/-- Adding to a number less than a power of ten that divides it does not move its leading
digits. -/
def NoRoundBetween (m n : Nat) : Prop := ∀ k, 10 ^ k ∣ m → m + 10 ^ k ≤ n

theorem not_noRoundBetween_zero : ¬ NoRoundBetween 0 n := by
  intro h
  have := h n (Nat.dvd_zero _)
  have hlt : n < 10 ^ n := Nat.lt_pow_self (by omega)
  omega

theorem add_pow_le_of_dvd {v k l : Nat} (hv : v < 10 ^ l) (hk : k ≤ l) (hdvd : 10 ^ k ∣ v) :
    v + 10 ^ k ≤ 10 ^ l := by
  obtain ⟨q, rfl⟩ := hdvd
  obtain ⟨c, hc⟩ := pow_dvd_pow 10 hk
  rw [hc] at hv ⊢
  have hpos : 0 < 10 ^ k := by positivity
  have hq : q + 1 ≤ c := Nat.lt_of_mul_lt_mul_left hv
  calc 10 ^ k * q + 10 ^ k = 10 ^ k * (q + 1) := by ring
    _ ≤ 10 ^ k * c := Nat.mul_le_mul_left _ hq

theorem le_of_pow_dvd {x v k l : Nat} (hv : v < 10 ^ l) (hx : x < 10) (hne : x * 10 ^ l + v ≠ 0)
    (hdvd : 10 ^ k ∣ x * 10 ^ l + v) : k ≤ l := by
  by_contra hk
  have hpow : 10 ^ (l + 1) ∣ x * 10 ^ l + v := (pow_dvd_pow 10 (by omega)).trans hdvd
  have hle := Nat.le_of_dvd (Nat.pos_of_ne_zero hne) hpow
  have : x * 10 ^ l ≤ 9 * 10 ^ l := Nat.mul_le_mul_right _ (by omega)
  rw [pow_succ] at hle
  omega

/-- A common leading digit does not count. -/
theorem noRoundBetween_add_iff {x v w l : Nat} (hv : v < 10 ^ l) (hx : x < 10) (hne : v ≠ 0) :
    NoRoundBetween (x * 10 ^ l + v) (x * 10 ^ l + w) ↔ NoRoundBetween v w := by
  constructor
  · intro h k hk
    have hkl : k ≤ l := by
      have hle := Nat.le_of_dvd (Nat.pos_of_ne_zero hne) hk
      exact ((Nat.pow_lt_pow_iff_right (by omega)).mp (hle.trans_lt hv)).le
    have := h k ((Nat.dvd_add_right (Dvd.dvd.mul_left (pow_dvd_pow 10 hkl) _)).mpr hk)
    omega
  · intro h k hk
    have hkl := le_of_pow_dvd hv hx (by omega) hk
    have := h k ((Nat.dvd_add_right (Dvd.dvd.mul_left (pow_dvd_pow 10 hkl) _)).mp hk)
    omega

/-- Digits of the same number of places: the smaller number's text sorts first exactly when the
other number does not begin with its printed digits. -/
theorem lettered_trimZeros_lt_iff {js : List (Fin 10)} (hlength : js.length = ks.length)
    (hlt : digitsValue js < digitsValue ks) :
    lettered exponent (trimZeros js) < lettered exponent (trimZeros ks) ↔
      NoRoundBetween (digitsValue js) (digitsValue ks) := by
  induction js generalizing ks with
  | nil =>
    cases ks with
    | nil => exact absurd hlt (lt_irrefl _)
    | cons k ks => exact absurd hlength (by simp)
  | cons x js ih =>
    cases ks with
    | nil => exact absurd hlength (by simp)
    | cons y ks =>
      have hlen : js.length = ks.length := by simpa using hlength
      have hjs := digitsValue_lt js
      have hks := digitsValue_lt ks
      rw [trimZeros_cons_of_ne (Nat.ne_of_gt (Nat.zero_lt_of_lt hlt))]
      rcases lt_trichotomy x y with hxy | rfl | hxy
      · by_cases hzero : digitsValue (x :: js) = 0
        · rw [trimZeros_cons_of_zero hzero, hzero]
          exact iff_of_false (not_lettered_nil_lt _ _ _) (not_noRoundBetween_zero _)
        · rw [trimZeros_cons_of_ne hzero, lettered_cons_lt_iff]
          refine iff_of_true (Or.inl hxy) ?_
          intro k hk
          rw [digitsValue] at hzero hk ⊢
          rw [digitsValue]
          have hkl := le_of_pow_dvd hjs x.isLt hzero hk
          have hdvd : 10 ^ k ∣ digitsValue js :=
            (Nat.dvd_add_right (Dvd.dvd.mul_left (pow_dvd_pow 10 hkl) _)).mp hk
          have hround := add_pow_le_of_dvd hjs hkl hdvd
          have hstep : (x.val + 1) * 10 ^ js.length ≤ y.val * 10 ^ ks.length := by
            rw [hlen]
            exact Nat.mul_le_mul_right _ hxy
          rw [add_mul, one_mul] at hstep
          omega
      · have hlt' : digitsValue js < digitsValue ks := by
          rw [digitsValue, digitsValue, hlen] at hlt
          omega
        obtain ⟨k, ks', hks'⟩ : ∃ k ks', trimZeros ks = k :: ks' := by
          apply exists_cons_of_ne_nil
          rw [ne_eq, trimZeros_eq_nil_iff]
          omega
        by_cases hwhole : digitsValue (x :: js) = 0
        · rw [trimZeros_cons_of_zero hwhole, hwhole]
          exact iff_of_false (not_lettered_nil_lt _ _ _) (not_noRoundBetween_zero _)
        rw [trimZeros_cons_of_ne hwhole, lettered_cons_lt_iff]
        by_cases hzero : digitsValue js = 0
        · rw [(trimZeros_eq_nil_iff js).mpr hzero, hks']
          refine iff_of_false ?_ ?_
          · rintro (h | ⟨-, h⟩)
            · exact lt_irrefl _ h
            · exact not_lettered_nil_lt _ _ _ h
          · intro h
            have hround := h js.length (by simp [digitsValue, hzero])
            rw [digitsValue, digitsValue, hzero, hlen] at hround
            omega
        · rw [digitsValue, digitsValue, ← hlen, noRoundBetween_add_iff hjs x.isLt hzero,
            ← ih hlen hlt']
          exact ⟨fun h => (h.resolve_left (lt_irrefl x)).2, fun h => Or.inr ⟨rfl, h⟩⟩
      · exfalso
        have hstep : (y.val + 1) * 10 ^ ks.length ≤ x.val * 10 ^ js.length := by
          rw [hlen]
          exact Nat.mul_le_mul_right _ hxy
        rw [digitsValue, digitsValue] at hlt
        rw [add_mul, one_mul] at hstep
        omega

/-- The point behind the first digit does not change the order. -/
theorem pointedText_lt_iff {js : List (Fin 10)} (hjs : js ≠ []) (hks : ks ≠ []) :
    pointedText js ++ 'e' :: exponent < pointedText ks ++ 'e' :: exponent ↔
      lettered exponent js < lettered exponent ks := by
  have hpoint : ('.' : Char) < 'e' := by decide
  have hfirst {j k : Fin 10} {js ks : List (Fin 10)} {s t : List Char}
      (h : s < t ↔ lettered exponent js < lettered exponent ks) : digitChar j :: s < digitChar k :: t ↔
        lettered exponent (j :: js) < lettered exponent (k :: ks) := by
    rw [lettered_cons_lt_iff, cons_lt_cons_iff, digitChar_lt_iff]
    exact or_congr_right (and_congr ⟨digitChar_injective, congrArg digitChar⟩ h)
  match js, ks with
  | [j], [k] => rfl
  | [j], k :: k' :: ks =>
    refine hfirst (iff_of_false ?_ ?_)
    · intro h
      rcases cons_lt_cons_iff.mp h with h | ⟨h, -⟩
      · exact absurd h hpoint.asymm
      · exact absurd h hpoint.ne'
    · exact not_lettered_nil_lt _ _ _
  | j :: j' :: js, [k] =>
    refine hfirst (iff_of_true ?_ ?_)
    · exact cons_lt_cons_iff.mpr (Or.inl hpoint)
    · exact cons_lt_cons_iff.mpr (Or.inl (digitChar_lt_e j'))
  | j :: j' :: js, k :: k' :: ks =>
    refine hfirst (cons_lt_cons_iff.trans ?_)
    simp only [lt_irrefl, true_and, false_or]
    rfl

/-! ## Whole numbers -/

theorem digitsValue_append_singleton (ks : List (Fin 10)) (k : Fin 10) :
    digitsValue (ks ++ [k]) = 10 * digitsValue ks + k := by
  induction ks with
  | nil => simp [digitsValue]
  | cons j ks ih =>
    rw [cons_append, digitsValue, digitsValue, ih, length_append, length_singleton,
      pow_succ]
    ring

/-- The digits of a number have its value. -/
theorem digitsValue_natDigits : digitsValue (natDigits n) = n := by
  refine value_digits rfl (fun ds k hk => ?_) n
  rw [digitsValue_append_singleton, Fin.val_ofNat, Nat.mod_eq_of_lt hk]

theorem head?_trimZeros (h : (trimZeros ks).head? = some k) : ks.head? = some k := by
  cases ks with
  | nil => exact absurd h (by simp [trimZeros])
  | cons j ks =>
    by_cases hzero : digitsValue (j :: ks) = 0
    · rw [trimZeros_cons_of_zero hzero] at h
      exact absurd h (by simp)
    · rw [trimZeros_cons_of_ne hzero] at h
      exact h

theorem getLast?_trimZeros (ks : List (Fin 10)) : (trimZeros ks).getLast? ≠ some 0 := by
  induction ks with
  | nil => simp [trimZeros]
  | cons k ks ih =>
    rw [trimZeros]
    split
    · split
      · simp
      · next hk => simpa using hk
    · next k' ks' h =>
      rw [h] at ih
      simpa [getLast?_cons_cons] using ih

theorem head?_natDigits : (natDigits n).head? ≠ some 0 := by
  intro h
  rw [natDigits, head?_map, head?_reverse] at h
  obtain ⟨k, hk, hzero⟩ := Option.map_eq_some_iff.mp h
  have hne : Nat.digits 10 n ≠ [] := by
    rintro hnil
    rw [hnil] at hk
    exact absurd hk (by simp)
  have hn : n ≠ 0 := by
    rintro rfl
    exact hne (Nat.digits_zero 10)
  have hlast := Nat.getLast_digit_ne_zero 10 hn
  rw [getLast?_eq_getLast_of_ne_nil hne, Option.some.injEq] at hk
  rw [hk] at hlast
  have hlt : k < 10 := Nat.digits_lt_base (by omega) (hk ▸ getLast_mem hne)
  have hval := congrArg Fin.val hzero
  rw [Fin.val_ofNat, Nat.mod_eq_of_lt hlt] at hval
  exact hlast hval

/-- A whole number as a shortest decimal. -/
def ofNat (n : Nat) : ShortDecimal where
  neg := false
  digits := trimZeros (natDigits n)
  point := (natDigits n).length
  head_ne h := head?_natDigits n (head?_trimZeros h)
  last_ne := getLast?_trimZeros _
  point_of_nil h := by
    rw [trimZeros_eq_nil_iff, digitsValue_natDigits] at h
    simp [h, natDigits]

/-- Cutting the trailing zeros divides the value by a power of ten. -/
theorem digitsValue_trimZeros (ks : List (Fin 10)) :
    (trimZeros ks).length ≤ ks.length ∧
      digitsValue (trimZeros ks) * 10 ^ (ks.length - (trimZeros ks).length) = digitsValue ks := by
  induction ks with
  | nil => simp [trimZeros, digitsValue]
  | cons k ks ih =>
    by_cases hzero : digitsValue (k :: ks) = 0
    · rw [trimZeros_cons_of_zero hzero, hzero]
      simp [digitsValue]
    · obtain ⟨hle, hvalue⟩ := ih
      rw [trimZeros_cons_of_ne hzero]
      refine ⟨by simpa using hle, ?_⟩
      have hsub : (k :: ks).length - (k :: trimZeros ks).length =
          ks.length - (trimZeros ks).length := by simp
      have hpow : 10 ^ ks.length =
          10 ^ (trimZeros ks).length * 10 ^ (ks.length - (trimZeros ks).length) := by
        rw [← pow_add, Nat.add_sub_cancel' hle]
      rw [hsub, digitsValue, digitsValue, add_mul, hvalue, hpow, mul_assoc]

/-- The decimal of a natural number has its value. -/
theorem value_ofNat : (ofNat n).value = n := by
  obtain ⟨hle, hvalue⟩ := digitsValue_trimZeros (natDigits n)
  have hexp : ((natDigits n).length : Int) - (trimZeros (natDigits n)).length =
      ((natDigits n).length - (trimZeros (natDigits n)).length : Nat) := by omega
  have hvalue : (digitsValue (trimZeros (natDigits n)) : Rat) *
      10 ^ ((natDigits n).length - (trimZeros (natDigits n)).length) = n := by
    exact_mod_cast hvalue.trans (digitsValue_natDigits n)
  unfold value
  simp only [ofNat, hexp, zpow_natCast]
  simpa using hvalue

/-- Whole numbers with the same number of at least seven digits. -/
theorem formatG_ofNat_lt_iff {m n : Nat} (hlength : (natDigits m).length = (natDigits n).length)
    (hseven : 7 ≤ (natDigits m).length) (hlt : m < n) :
    (ofNat m).formatG < (ofNat n).formatG ↔ NoRoundBetween m n := by
  have hpositive : 0 < m := by
    rcases Nat.eq_zero_or_pos m with rfl | hm
    · simp [natDigits] at hseven
    · exact hm
  have htext : ∀ k : Nat, 7 ≤ (natDigits k).length → (ofNat k).formatG =
      pointedText (trimZeros (natDigits k)) ++
        'e' :: exponentText ((natDigits k).length - 1 : Int) := by
    intro k hk
    have huses : (ofNat k).usesExponent = true := by
      have hpoint : (ofNat k).point = (natDigits k).length := rfl
      rw [usesExponent, hpoint, Bool.or_eq_true]
      exact Or.inr (decide_eq_true (by omega))
    rw [formatG, unsigned, if_pos huses]
    rfl
  have hne : ∀ k : Nat, 0 < k → trimZeros (natDigits k) ≠ [] := by
    intro k hk
    rw [ne_eq, trimZeros_eq_nil_iff, digitsValue_natDigits]
    omega
  rw [htext m hseven, htext n (hlength ▸ hseven), ← hlength,
    pointedText_lt_iff _ (hne m hpositive) (hne n (by omega)),
    lettered_trimZeros_lt_iff _ hlength (by simpa [digitsValue_natDigits] using hlt),
    digitsValue_natDigits, digitsValue_natDigits]

end ShortDecimal

end LokiVlProxy.Foundation
