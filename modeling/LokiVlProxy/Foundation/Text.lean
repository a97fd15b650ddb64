/-
  Foundation/Text.lean --- text as lists of characters.

  White space is what has the White_Space property in Unicode, which is what the `unicode`
  package of Go goes by; `trimSpace` is that of its `strings` package.
-/
import Mathlib.Data.List.DropRight

namespace LokiVlProxy.Foundation

open List

/-- A text, character by character. -/
abbrev Text : Type := List Char

instance instLawfulBEqText : LawfulBEq Text := inferInstance

def isSpace (c : Char) : Bool :=
  let n := c.toNat
  (0x9 ≤ n && n ≤ 0xD) || (0x2000 ≤ n && n ≤ 0x200A) ||
    [0x20, 0x85, 0xA0, 0x1680, 0x2028, 0x2029, 0x202F, 0x205F, 0x3000].contains n

variable {c : Char} {a : Text} {p : Char → Bool}

theorem isSpace_of_isDigit (hc : c.isDigit = true) : isSpace c = false := by
  have hrange : 48 ≤ c.toNat ∧ c.toNat ≤ 57 := by
    simpa [Char.isDigit, UInt32.le_iff_toNat_le] using hc
  simp [isSpace]
  omega

section

variable {α : Type} {p : α → Bool} {s a b : List α} {x : α}

/-- What is left when elements with `p` are dropped at both ends. -/
def trim (p : α → Bool) (s : List α) : List α := (s.dropWhile p).rdropWhile p

theorem trim_eq_self (hhead : ∀ x ∈ s.head?, p x = false) (hlast : ∀ x ∈ s.getLast?, p x = false) :
    trim p s = s := by
  have hfront : s.dropWhile p = s := by
    cases s with
    | nil => rfl
    | cons x s => exact dropWhile_cons_of_neg (by simp [hhead x rfl])
  rw [trim, hfront, rdropWhile_eq_self_iff]
  intro hne
  simp [hlast _ (getLast?_eq_getLast_of_ne_nil hne)]

/-- A trimmed text neither starts nor ends with a letter that is cut. -/
theorem ends_trim (p : α → Bool) (s : List α) :
    (∀ x ∈ (trim p s).head?, p x = false) ∧ ∀ x ∈ (trim p s).getLast?, p x = false := by
  refine ⟨fun x hx => ?_, fun x hx => ?_⟩
  · obtain ⟨rest, hrest⟩ := rdropWhile_prefix p (l := s.dropWhile p)
    have hhead : x ∈ (s.dropWhile p).head? := by
      rw [← hrest]
      exact mem_head?_append_of_mem_head? hx
    have hnot := head?_dropWhile_not p s
    rw [Option.mem_def.mp hhead] at hnot
    exact hnot
  · have hne : trim p s ≠ [] := by
      rintro hnil
      rw [hnil] at hx
      cases hx
    have hlast := rdropWhile_last_not p (s.dropWhile p) hne
    rw [Option.mem_def, getLast?_eq_getLast_of_ne_nil hne, Option.some.injEq] at hx
    rw [← hx]
    exact Bool.eq_false_iff.mpr hlast

theorem trim_trim (p : α → Bool) (s : List α) : trim p (trim p s) = trim p s :=
  trim_eq_self (ends_trim p s).1 (ends_trim p s).2

theorem trim_append_left (ha : ∀ x ∈ a, p x = true) (b : List α) : trim p (a ++ b) = trim p b := by
  rw [trim, dropWhile_append_of_pos ha, trim]

theorem rdropWhile_append_of_all (hb : ∀ x ∈ b, p x = true) (a : List α) :
    (a ++ b).rdropWhile p = a.rdropWhile p := by
  have hrev : ∀ x ∈ b.reverse, p x = true := fun x hx => hb x (mem_reverse.mp hx)
  rw [List.rdropWhile, reverse_append, dropWhile_append_of_pos hrev, List.rdropWhile]

theorem trim_append_right (hb : ∀ x ∈ b, p x = true) (a : List α) : trim p (a ++ b) = trim p a := by
  induction a with
  | nil =>
    rw [nil_append, trim, dropWhile_eq_nil_iff.mpr hb]
    rfl
  | cons x a ih =>
    rw [cons_append]
    cases hx : p x with
    | true =>
      rw [trim, dropWhile_cons_of_pos hx, ← trim, ih, trim, trim, dropWhile_cons_of_pos hx]
    | false =>
      rw [trim, dropWhile_cons_of_neg (by simp [hx]), ← cons_append,
        rdropWhile_append_of_all hb, trim, dropWhile_cons_of_neg (by simp [hx])]

theorem trim_sublist (p : α → Bool) (s : List α) : trim p s <+ s := by
  have hcut := rdropWhile_prefix p (s.dropWhile p)
  exact hcut.sublist.trans (dropWhile_sublist p)

theorem mem_dropWhile (h : x ∈ s) (hx : p x = false) : x ∈ s.dropWhile p := by
  rw [← takeWhile_append_dropWhile (p := p) (l := s), mem_append] at h
  exact h.resolve_left fun hmem => Bool.eq_false_iff.mp hx (mem_takeWhile_imp hmem)

theorem mem_trim (h : x ∈ s) (hx : p x = false) : x ∈ trim p s := by
  rw [trim, List.rdropWhile, mem_reverse]
  exact mem_dropWhile (mem_reverse.mpr (mem_dropWhile h hx)) hx

end

variable (text : Text)

def trimSpace : Text :=
  (text.dropWhile isSpace).rdropWhile isSpace

/-- Text that neither begins nor ends with white space. -/
def Trimmed : Prop :=
  (∀ c ∈ text.head?, isSpace c = false) ∧ ∀ c ∈ text.getLast?, isSpace c = false

theorem trimSpace_of_trimmed {text : Text} (h : Trimmed text) : trimSpace text = text :=
  trim_eq_self h.1 h.2

theorem trimSpace_of_noSpace {text : Text} (h : ∀ c ∈ text, isSpace c = false) :
    trimSpace text = text :=
  trimSpace_of_trimmed ⟨fun c hc => h c (mem_of_mem_head? hc), fun c hc => h c (mem_of_getLast? hc)⟩

variable {α : Type}

/-- A text is cut at the first separator in one way. -/
theorem append_cons_inj_of_notMem {c : α} {a b x y : List α} (ha : c ∉ a) (hb : c ∉ b)
    (h : a ++ c :: x = b ++ c :: y) : a = b ∧ x = y := by
  induction a generalizing b with
  | nil =>
    cases b with
    | nil => exact ⟨rfl, (cons.inj h).2⟩
    | cons d b => exact absurd ((cons.inj h).1 ▸ mem_cons_self) hb
  | cons e a ih =>
    cases b with
    | nil => exact absurd ((cons.inj h).1 ▸ mem_cons_self) ha
    | cons d b =>
      obtain ⟨hhead, htail⟩ := cons.inj h
      obtain ⟨hab, hxy⟩ := ih (fun hc => ha (mem_cons_of_mem _ hc))
        (fun hc => hb (mem_cons_of_mem _ hc)) htail
      exact ⟨by rw [hhead, hab], hxy⟩

/-- The same at the last separator. -/
theorem append_cons_inj_of_notMem_right {c : α} {a b x y : List α} (hx : c ∉ x) (hy : c ∉ y)
    (h : a ++ c :: x = b ++ c :: y) : a = b ∧ x = y := by
  have hrev : x.reverse ++ c :: a.reverse = y.reverse ++ c :: b.reverse := by
    simpa using congrArg List.reverse h
  obtain ⟨hxy, hab⟩ := append_cons_inj_of_notMem (by simpa using hx) (by simpa using hy) hrev
  exact ⟨reverse_injective hab, reverse_injective hxy⟩

/-- `strings.Trim`: what is left when characters of `cut` are dropped at both ends. -/
def trimAny (cut text : Text) : Text :=
  (text.dropWhile cut.contains).rdropWhile cut.contains

/-- `strings.Index`: where `pat` first stands in a text. -/
def textIndex (pat : Text) : Text → Option Nat
  | [] => if pat.isEmpty then some 0 else none
  | c :: text =>
    if pat.isPrefixOf (c :: text) then some 0 else (textIndex pat text).map (· + 1)

theorem rdropWhile_append_cons (hc : p c = false) (a b : Text) :
    (a ++ c :: b).rdropWhile p = a ++ c :: b.rdropWhile p := by
  induction b using List.reverseRecOn with
  | nil => exact rdropWhile_concat_neg p a c (by simp [hc])
  | append_singleton b d ih =>
    rw [← cons_append, ← append_assoc]
    cases hd : p d with
    | true => rw [rdropWhile_concat_pos p _ d hd, rdropWhile_concat_pos p _ d hd, ih]
    | false =>
      rw [rdropWhile_concat_neg p _ d (by simp [hd]),
        rdropWhile_concat_neg p _ d (by simp [hd])]
      simp

theorem trimSpace_append_left (ha : ∀ c ∈ a, isSpace c = true) (b : Text) :
    trimSpace (a ++ b) = trimSpace b :=
  trim_append_left ha b

theorem trimSpace_append_right {b : Text} (hb : ∀ c ∈ b, isSpace c = true) (a : Text) :
    trimSpace (a ++ b) = trimSpace a :=
  trim_append_right hb a

theorem trimmed_trimSpace : Trimmed (trimSpace text) := ends_trim isSpace text

theorem trimSpace_trimSpace : trimSpace (trimSpace text) = trimSpace text :=
  trim_trim isSpace text

theorem trimSpace_rdropWhile : trimSpace (text.rdropWhile isSpace) = trimSpace text := by
  have hback : ∀ c ∈ text.rtakeWhile isSpace, isSpace c = true := fun c hc =>
    mem_rtakeWhile_imp hc
  have hcut : text.rdropWhile isSpace ++ text.rtakeWhile isSpace = text :=
    rdropWhile_append_rtakeWhile
  rw [← trimSpace_append_right hback, hcut]

theorem textIndex_append {d : Char} {pat : Text} (ha : d ∉ a) (b : Text) :
    textIndex (d :: pat) (a ++ b) = (textIndex (d :: pat) b).map (· + a.length) := by
  induction a with
  | nil => simp
  | cons c a ih =>
    have hne : (d == c) = false := by
      simpa using fun h : d = c => ha (h ▸ mem_cons_self)
    rw [cons_append, textIndex, List.isPrefixOf, hne, Bool.false_and,
      ih (fun h => ha (mem_cons_of_mem c h)), Option.map_map]
    congr 1

theorem textIndex_self_append {d : Char} (pat b : Text) :
    textIndex (d :: pat) (d :: pat ++ b) = some 0 := by
  have hpre : (d :: pat).isPrefixOf (d :: pat ++ b) = true :=
    isPrefixOf_iff_prefix.mpr (prefix_append _ _)
  rw [cons_append] at hpre ⊢
  rw [textIndex, if_pos hpre]

theorem mem_intercalate {b c : α} {parts : List (List α)}
    (hb : b ∈ [c].intercalate parts) : b = c ∨ ∃ part ∈ parts, b ∈ part := by
  induction parts with
  | nil => simp at hb
  | cons part parts ih =>
    cases parts with
    | nil => exact .inr ⟨part, by simp, by simpa using hb⟩
    | cons next parts =>
      rw [intercalate_cons_of_ne_nil (cons_ne_nil _ _), append_assoc,
        singleton_append, mem_append, mem_cons] at hb
      rcases hb with hb | hb | hb
      · exact .inr ⟨part, by simp, hb⟩
      · exact .inl hb
      · rcases ih hb with h | ⟨part', hpart', hb'⟩
        · exact .inl h
        · exact .inr ⟨part', mem_cons_of_mem _ hpart', hb'⟩

theorem intercalate_concat {pieces : List (List α)} (hne : pieces ≠ []) (c : α)
    (last : List α) : [c].intercalate (pieces ++ [last]) = [c].intercalate pieces ++ c :: last := by
  induction pieces with
  | nil => exact absurd rfl hne
  | cons piece pieces ih =>
    cases pieces with
    | nil => simp [intercalate_cons_cons]
    | cons piece' pieces =>
      rw [cons_append, intercalate_cons_of_ne_nil (by simp), ih (cons_ne_nil _ _),
        intercalate_cons_of_ne_nil (cons_ne_nil _ _), append_assoc, append_assoc, append_assoc]

/-- Pieces that end where they say are determined by their concatenation. -/
theorem flatMap_injective {f : α → Text} (hne : ∀ a, f a ≠ [])
    (hread : ∀ a b x y, f a ++ x = f b ++ y → a = b ∧ x = y) :
    Function.Injective (List.flatMap f) := by
  intro as
  induction as with
  | nil =>
    intro bs h
    cases bs with
    | nil => rfl
    | cons b bs => exact absurd (append_eq_nil_iff.mp h.symm).1 (hne b)
  | cons a as ih =>
    intro bs h
    cases bs with
    | nil => exact absurd (append_eq_nil_iff.mp h).1 (hne a)
    | cons b bs =>
      obtain ⟨rfl, htail⟩ := hread a b _ _ h
      rw [ih htail]

/-! ## Whole numbers in decimal -/

/-- `strconv.FormatInt` and `strconv.Itoa`. -/
def formatInt (n : Int) : Text :=
  if n < 0 then '-' :: Nat.toDigits 10 n.natAbs else Nat.toDigits 10 n.natAbs

/-- The value of a text of one or more decimal digits. -/
def parseDigits (digits : Text) : Option Nat :=
  if digits ≠ [] ∧ digits.all Char.isDigit then some (Nat.ofDigitChars 10 digits 0) else none

/-- `strconv.ParseInt` and `strconv.Atoi`: an optional sign and digits, within 64 bits. -/
def parseInt : Option Int :=
  let inRange (n : Int) : Option Int :=
    if -9223372036854775808 ≤ n ∧ n ≤ 9223372036854775807 then some n else none
  match text with
  | '-' :: digits => (parseDigits digits).bind fun n => inRange (-n)
  | '+' :: digits => (parseDigits digits).bind fun n => inRange n
  | digits => (parseDigits digits).bind fun n => inRange n

theorem isDigit_of_mem_toDigits {n : Nat} {c : Char} (hc : c ∈ Nat.toDigits 10 n) :
    c.isDigit = true :=
  Nat.isDigit_of_mem_toDigits (by decide) (by decide) hc

/-- The decimal text of an integer determines it. -/
theorem formatInt_injective : Function.Injective formatInt := by
  have hdigits : ∀ {m n : Nat}, Nat.toDigits 10 m = Nat.toDigits 10 n → m = n := by
    intro m n h
    calc m
      _ = Nat.ofDigitChars 10 (Nat.toDigits 10 m) 0 := Nat.ofDigitChars_ten_toDigits.symm
      _ = Nat.ofDigitChars 10 (Nat.toDigits 10 n) 0 := by rw [h]
      _ = n := Nat.ofDigitChars_ten_toDigits
  have hsign : ∀ {m n : Nat}, '-' :: Nat.toDigits 10 m ≠ Nat.toDigits 10 n := by
    intro m n h
    exact absurd (isDigit_of_mem_toDigits (h ▸ mem_cons_self)) (by decide)
  intro m n h
  simp only [formatInt] at h
  split_ifs at h with hm hn hn
  · have habs := hdigits (cons.inj h).2
    omega
  · exact absurd h hsign
  · exact absurd h.symm hsign
  · have habs := hdigits h
    omega

theorem formatInt_ne_nil (n : Int) : formatInt n ≠ [] := by
  rw [formatInt]
  split_ifs
  · exact cons_ne_nil _ _
  · exact Nat.toDigits_ne_nil

theorem parseDigits_toDigits (n : Nat) : parseDigits (Nat.toDigits 10 n) = some n := by
  have hall : (Nat.toDigits 10 n).all Char.isDigit = true :=
    all_eq_true.mpr fun c hc => isDigit_of_mem_toDigits hc
  rw [parseDigits, if_pos ⟨Nat.toDigits_ne_nil, hall⟩, Nat.ofDigitChars_ten_toDigits]

/-- An integer is read back from its text, as far as an int64 holds it. -/
theorem parseInt_formatInt {n : Int} (hnonneg : 0 ≤ n) (hle : n ≤ 9223372036854775807) :
    parseInt (formatInt n) = some n := by
  have hdigits := parseDigits_toDigits n.natAbs
  have hhead : ∀ c rest, Nat.toDigits 10 n.natAbs = c :: rest → c.isDigit = true := by
    intro c rest h
    exact isDigit_of_mem_toDigits (h ▸ mem_cons_self : c ∈ Nat.toDigits 10 n.natAbs)
  rw [formatInt, if_neg (by omega), parseInt, hdigits]
  · simp only [Option.bind_some]
    rw [if_pos (by omega)]
    congr 1
    omega
  all_goals exact fun rest h => absurd (hhead _ _ h) (by decide)

end LokiVlProxy.Foundation
