/-
  Foundation/Quoting.lean --- string literals, as `strconv` writes and reads them.

  `quote` writes a literal in double quotes and escapes what is not printable; `unquote` reads
  such a literal.
-/
import Mathlib
import LokiVlProxy.Foundation.Rune

namespace LokiVlProxy.Foundation

open List Rune Option

/-- The classes of the `unicode` package, for the characters beyond ASCII. -/
structure UnicodeTables where
  letter : Char → Bool
  digit : Char → Bool
  print : Char → Bool

namespace UnicodeTables

variable (u : UnicodeTables)

def isLetter (c : Char) : Bool := if c.toNat < 128 then c.isAlpha else u.letter c

def isDigit (c : Char) : Bool := if c.toNat < 128 then c.isDigit else u.digit c

def isPrint (c : Char) : Bool :=
  if c.toNat < 128 then 32 ≤ c.toNat && c.toNat < 127 else u.print c

end UnicodeTables

/-! ## Hexadecimal digits -/

def hexRune (n : Nat) : Rune := .point (if n < 10 then Char.ofNat (48 + n) else Char.ofNat (87 + n))

/-- The last `width` hexadecimal digits of a number. -/
def hexRunes : Nat → Nat → Runes
  | 0, _ => []
  | width + 1, n => hexRunes width (n / 16) ++ [hexRune (n % 16)]

def unhex : Rune → Option Nat
  | .point c =>
      if '0' ≤ c ∧ c ≤ '9' then some (c.toNat - 48)
      else if 'a' ≤ c ∧ c ≤ 'f' then some (c.toNat - 87)
      else if 'A' ≤ c ∧ c ≤ 'F' then some (c.toNat - 55)
      else none
  | .stray _ => none

/-- Reads `width` hexadecimal digits behind the number read so far. -/
def readHex : Nat → Nat → Runes → Option (Nat × Runes)
  | 0, n, s => some (n, s)
  | _ + 1, _, [] => none
  | width + 1, n, r :: s => (unhex r).bind fun d => readHex width (16 * n + d) s

/-! ## Writing -/

/-- The escapes that stand for one character each. -/
def shortEscapeOf : List (Char × Char) :=
  [('\x07', 'a'), ('\x08', 'b'), ('\x0c', 'f'), ('\n', 'n'), ('\r', 'r'), ('\t', 't'), ('\x0b', 'v')]

variable (u : UnicodeTables)

/-- One rune of a literal in double quotes. -/
def quoteRune : Rune → Runes
  | .stray b => .point '\\' :: .point 'x' :: hexRunes 2 b.toNat
  | .point c =>
      if c = '"' ∨ c = '\\' then [.point '\\', .point c]
      else if u.isPrint c then [.point c]
      else
        match shortEscapeOf.lookup c with
        | some e => [.point '\\', .point e]
        | none =>
            if c.toNat < 32 ∨ c.toNat = 127 then .point '\\' :: .point 'x' :: hexRunes 2 c.toNat
            else if c.toNat < 65536 then .point '\\' :: .point 'u' :: hexRunes 4 c.toNat
            else .point '\\' :: .point 'U' :: hexRunes 8 c.toNat

def quote (s : Runes) : Runes := .point '"' :: (s.flatMap (quoteRune u) ++ [.point '"'])

/-! ## Reading -/

/-- What stands behind a backslash in double quotes. -/
def unescape : Runes → Option (Rune × Runes)
  | .point 'x' :: s => (readHex 2 0 s).map fun d => (.ofByte (UInt8.ofNat d.1), d.2)
  | .point 'u' :: s => (readHex 4 0 s).bind fun d =>
      if d.1.isValidChar then some (.point (Char.ofNat d.1), d.2) else none
  | .point 'U' :: s => (readHex 8 0 s).bind fun d =>
      if d.1.isValidChar then some (.point (Char.ofNat d.1), d.2) else none
  | .point '\\' :: s => some (.point '\\', s)
  | .point '"' :: s => some (.point '"', s)
  | .point c :: s =>
      match shortEscapeOf.find? fun e => e.2 = c with
      | some e => some (.point e.1, s)
      | none => octal (.point c :: s)
  | _ => none
where
  octalDigit : Rune → Option Nat
    | .point c => if '0' ≤ c ∧ c ≤ '7' then some (c.toNat - 48) else none
    | .stray _ => none
  octal : Runes → Option (Rune × Runes)
    | a :: b :: c :: s => do
        let n := (← octalDigit a) * 64 + (← octalDigit b) * 8 + (← octalDigit c)
        if n < 256 then some (.ofByte (UInt8.ofNat n), s) else none
    | _ => none

/-- `UnquoteChar` in double quotes. -/
def unquoteChar : Runes → Option (Rune × Runes)
  | .point '\n' :: _ => none
  | .point '\\' :: s => unescape s
  | r :: s => some (r.rewritten, s)
  | [] => none

/-- What the literal behind the opening quote stands for; it ends with the text. -/
def unquoteBody : Nat → Runes → Option Runes
  | 0, _ => none
  | fuel + 1, s =>
      if s = [.point '"'] then some []
      else if s.head? = some (.point '"') then none
      else (unquoteChar s).bind fun r => (unquoteBody fuel r.2).map (r.1 :: ·)

/-- `strconv.Unquote` on a literal in double quotes. -/
def unquote : Runes → Option Runes
  | .point '"' :: s => (unquoteBody s.length s).map fun v => decode (encode v)
  | _ => none

/-- `UnquoteChar` in single quotes. -/
def unquoteCharSingle : Runes → Option (Rune × Runes)
  | .point '\x27' :: _ => none
  | .point '\\' :: .point '\x27' :: s => some (.point '\x27', s)
  | .point '\\' :: .point '"' :: _ => none
  | s => unquoteChar s

/-- What a literal in single quotes stands for, behind the opening quote: at most one character. -/
def unquoteSingle (s : Runes) : Option Runes :=
  if s = [.point '\x27'] then some []
  else (unquoteCharSingle s).bind fun r => if r.2 = [.point '\x27'] then some [r.1] else none

/-- What a literal in back quotes stands for, behind the opening quote. -/
def unquoteRaw (s : Runes) : Option Runes :=
  if s.getLast? = some (.point '\x60') ∧ .point '\x60' ∉ s.dropLast then
    some (s.dropLast.filter fun r => r ≠ .point '\r')
  else none

/-- `strconv.Unquote`. -/
def unquoteAny : Runes → Option Runes
  | .point '\x27' :: s => (unquoteSingle s).map fun v => decode (encode v)
  | .point '\x60' :: s => unquoteRaw s
  | s => unquote s

/-! ## What a literal stands for -/

/-- The length of a string in bytes. -/
def byteSize (s : Runes) : Nat := (encode s).length

theorem byteSize_append (s t : Runes) : byteSize (s ++ t) = byteSize s + byteSize t := by
  rw [byteSize, encode_append, length_append]
  rfl

variable (r : Rune)

theorem byteSize_cons (s : Runes) : byteSize (r :: s) = byteSize [r] + byteSize s :=
  byteSize_append [r] s

theorem byteSize_point (c : Char) : byteSize [.point c] = c.utf8Size := by
  simp [byteSize, encode, bytes]

theorem bytes_ofByte (b : UInt8) : (ofByte b).bytes = [b] := by
  unfold ofByte
  split
  next h =>
    have hb : b.toNat < 128 := h
    have hvalid : b.toNat.isValidChar := .inl (by omega)
    have hval : (Char.ofNat b.toNat).val.toNat = b.toNat := by
      simp only [Char.ofNat, hvalid, dif_pos]
      rfl
    rw [bytes, String.utf8EncodeChar, hval, if_pos (by omega), UInt8.ofNat_toNat]
  next => rfl

theorem byteSize_ofByte (b : UInt8) : byteSize [.ofByte b] = 1 := by
  simp [byteSize, encode, bytes_ofByte]

theorem length_le_byteSize (s : Runes) : s.length ≤ byteSize s := by
  induction s with
  | nil => exact le_rfl
  | cons r s ih =>
    have hr : 1 ≤ byteSize [r] := by
      cases r with
      | point c => exact byteSize_point c ▸ c.utf8Size_pos
      | stray b => exact le_rfl
    rw [byteSize_cons, length_cons]
    omega

/-- Characters that no escape holds but to stand for them. -/
def unescaping : List Char := ['"', '\x00']

theorem forall_unescaping {p : Char → Prop} (hquote : p '"') (hzero : p '\x00') :
    ∀ q ∈ unescaping, p q :=
  forall_mem_cons.mpr ⟨hquote, forall_mem_singleton.mpr hzero⟩

variable {s s' v : Runes} {fuel : Nat}

theorem readHex_spec {width n d : Nat} (h : readHex width n s = some (d, s')) :
    ∃ digits, s = digits ++ s' ∧ digits.length = width ∧ ∀ q ∈ unescaping, .point q ∉ digits := by
  induction width generalizing n s with
  | zero =>
    obtain ⟨rfl, rfl⟩ : n = d ∧ s = s' := by simpa [readHex] using h
    exact ⟨[], rfl, rfl, by simp⟩
  | succ width ih =>
    cases s with
    | nil => cases h
    | cons r s =>
      obtain ⟨m, hm, hrest⟩ := bind_eq_some_iff.mp h
      obtain ⟨digits, rfl, hlength, hquote⟩ := ih hrest
      refine ⟨r :: digits, rfl, by simp [hlength], ?_⟩
      intro q hq
      have hnone : ∀ q ∈ unescaping, unhex (.point q) = none :=
        forall_unescaping (by decide) (by decide)
      have hr : .point q ≠ r := by
        rintro rfl
        rw [hnone q hq] at hm
        cases hm
      simp [hquote q hq, hr]

theorem octal_spec {r : Rune} (h : unescape.octal s = some (r, s')) :
    ∃ taken, s = taken ++ s' ∧ taken.length = 3 ∧ byteSize [r] = 1 ∧
      ∀ q ∈ unescaping, .point q ∉ taken := by
  have hnone : ∀ q ∈ unescaping, unescape.octalDigit (.point q) = none :=
    forall_unescaping (by decide) (by decide)
  have hdigit : ∀ {a : Rune} {n : Nat}, unescape.octalDigit a = some n →
      ∀ q ∈ unescaping, .point q ≠ a := by
    rintro a n hn q hq rfl
    rw [hnone q hq] at hn
    cases hn
  unfold unescape.octal at h
  split at h
  next a b c s =>
    simp only [bind_eq_bind, bind_eq_some_iff] at h
    obtain ⟨x, hx, y, hy, z, hz, h⟩ := h
    obtain ⟨-, hpair⟩ := ite_none_right_eq_some.mp h
    obtain ⟨rfl, rfl⟩ := Prod.mk.inj (some.inj hpair)
    refine ⟨[a, b, c], rfl, rfl, byteSize_ofByte _, fun q hq => ?_⟩
    simp [hdigit hx q hq, hdigit hy q hq, hdigit hz q hq]
  next => cases h

/-- An escape is longer than what it stands for, and holds such a character only to stand for
it. -/
theorem unescape_spec {r : Rune} (h : unescape s = some (r, s')) :
    ∃ taken, s = taken ++ s' ∧ byteSize [r] < taken.length + 1 ∧
      ∀ q ∈ unescaping, .point q ∈ taken → r = .point q := by
  have hpoint : ∀ c, byteSize [.point c] ≤ 4 := fun c => byteSize_point c ▸ c.utf8Size_le_four
  have hhex : ∀ {width d : Nat} {c : Char} {s : Runes}, readHex width 0 s = some (d, s') →
      c ∉ unescaping → byteSize [r] < width + 2 → ∃ taken, .point c :: s = taken ++ s' ∧
        byteSize [r] < taken.length + 1 ∧ ∀ q ∈ unescaping, .point q ∈ taken → r = .point q := by
    intro width d c s hread hc hsize
    obtain ⟨digits, rfl, hlength, hquote⟩ := readHex_spec hread
    refine ⟨.point c :: digits, rfl, ?_, fun q hq hmem => ?_⟩
    · rwa [length_cons, hlength]
    obtain hfirst | hmem := mem_cons.mp hmem
    · exact absurd (point.inj hfirst ▸ hq) hc
    · exact absurd hmem (hquote q hq)
  have hone : ∀ {c : Char} {s : Runes}, s = s' → byteSize [r] = 1 →
      (c ∈ unescaping → r = .point c) →
      ∃ taken, .point c :: s = taken ++ s' ∧ byteSize [r] < taken.length + 1 ∧
        ∀ q ∈ unescaping, .point q ∈ taken → r = .point q := by
    intro c s hs hsize hc
    refine ⟨[.point c], by rw [hs]; rfl, by simp [hsize], fun q hq hmem => ?_⟩
    obtain rfl : q = c := point.inj (mem_singleton.mp hmem)
    exact hc hq
  revert h
  fun_cases unescape s with
  | case1 s =>
    intro h
    obtain ⟨⟨d, rest⟩, hread, hpair⟩ := map_eq_some_iff.mp h
    obtain ⟨rfl, rfl⟩ := Prod.mk.inj hpair
    exact hhex hread (by decide) (by rw [byteSize_ofByte]; omega)
  | case2 s | case3 s =>
    intro h
    obtain ⟨⟨d, rest⟩, hread, hvalid⟩ := bind_eq_some_iff.mp h
    obtain ⟨-, hpair⟩ := ite_none_right_eq_some.mp hvalid
    obtain ⟨rfl, rfl⟩ := Prod.mk.inj (some.inj hpair)
    exact hhex hread (by decide) ((hpoint _).trans_lt (by omega))
  | case4 s | case5 s =>
    intro h
    obtain ⟨rfl, hs⟩ := Prod.mk.inj (some.inj h)
    exact hone hs rfl (by decide)
  | case6 c s _ _ _ _ hc e he =>
    intro h
    obtain ⟨rfl, hs⟩ := Prod.mk.inj (some.inj h)
    have hsize : ∀ e ∈ shortEscapeOf, byteSize [.point e.1] = 1 := by decide
    have hletter : ∀ e ∈ shortEscapeOf, e.2 ∉ unescaping := by decide
    have hmem := mem_of_find?_eq_some he
    obtain rfl : e.2 = c := by simpa using find?_some he
    exact hone hs (hsize e hmem) fun h => absurd h (hletter e hmem)
  | case7 c s _ _ _ _ hc =>
    intro h
    obtain ⟨taken, hs, hlength, hsize, hquote⟩ := octal_spec h
    exact ⟨taken, hs, by rw [hsize, hlength]; omega, fun q hq h => absurd h (hquote q hq)⟩
  | case8 => nofun

/-- What one step of unquoting takes from the text: a plain rune, or an escape. -/
theorem unquoteChar_spec {r : Rune} (h : unquoteChar s = some (r, s')) :
    (∃ r₀, s = r₀ :: s' ∧ r₀ ≠ .point '\\' ∧ r = r₀.rewritten) ∨
    ∃ taken, s = .point '\\' :: taken ++ s' ∧ byteSize [r] < taken.length + 1 ∧
      ∀ q ∈ unescaping, .point q ∈ taken → r = .point q := by
  revert h
  fun_cases unquoteChar s with
  | case1 | case4 => nofun
  | case2 s =>
    intro h
    obtain ⟨taken, rfl, hsize, hquote⟩ := unescape_spec h
    exact .inr ⟨taken, rfl, hsize, hquote⟩
  | case3 r₀ s _ hslash =>
    intro h
    obtain ⟨rfl, rfl⟩ := Prod.mk.inj (some.inj h)
    exact .inl ⟨r₀, rfl, hslash, rfl⟩

/-- One step of the loop that reads a quoted text. -/
theorem unquoteBody_cases (h : unquoteBody (fuel + 1) s = some v) :
    (s = [.point '"'] ∧ v = []) ∨
    ∃ r s' v', s.head? ≠ some (.point '"') ∧ unquoteChar s = some (r, s') ∧
      unquoteBody fuel s' = some v' ∧ v = r :: v' := by
  rw [unquoteBody] at h
  split at h
  next hs => exact .inl ⟨hs, (some.inj h).symm⟩
  next =>
    split at h
    next => cases h
    next hhead =>
      obtain ⟨⟨r, s'⟩, hchar, hrest⟩ := bind_eq_some_iff.mp h
      obtain ⟨v', hv', rfl⟩ := map_eq_some_iff.mp hrest
      exact .inr ⟨r, s', v', hhead, hchar, hv', rfl⟩

/-- A literal is at least as long as what it stands for and its closing quote, and longer when
there are escapes in it. -/
theorem byteSize_unquoteBody (hpoints : s.all isPoint) (h : unquoteBody fuel s = some v) :
    byteSize v + 1 ≤ byteSize s ∧ (.point '\\' ∈ s → byteSize v + 1 < byteSize s) := by
  induction fuel generalizing s v with
  | zero => cases h
  | succ fuel ih =>
    obtain ⟨rfl, rfl⟩ | ⟨r, s', v', -, hchar, hrest, rfl⟩ := unquoteBody_cases h
    · exact ⟨le_rfl, by simp⟩
    · obtain ⟨r₀, rfl, hslash, rfl⟩ | ⟨taken, rfl, hsize, -⟩ := unquoteChar_spec hchar
      · simp only [all_cons, Bool.and_eq_true] at hpoints
        obtain ⟨hle, hlt⟩ := ih hpoints.2 hrest
        have hsame : r₀.rewritten = r₀ := by
          cases r₀ with
          | point c => rfl
          | stray b => cases hpoints.1
        rw [byteSize_cons, byteSize_cons r₀, hsame]
        refine ⟨by omega, ?_⟩
        intro hmem
        have := hlt ((mem_cons.mp hmem).resolve_left fun h => hslash h.symm)
        omega
      · have hpoints' : s'.all isPoint := by
          simp only [all_append, all_cons, Bool.and_eq_true] at hpoints
          exact hpoints.2
        obtain ⟨hle, -⟩ := ih hpoints' hrest
        have htaken := length_le_byteSize taken
        have hslash : byteSize [.point '\\'] = 1 := rfl
        rw [byteSize_cons, byteSize_append, byteSize_cons (.point '\\'), hslash]
        exact ⟨by omega, fun _ => by omega⟩

/-- A quote inside a literal is escaped, and stands for a quote; no escape hides a zero. -/
theorem mem_of_unquoteBody {q : Char} (hq : q ∈ unescaping) (h : unquoteBody fuel s = some v)
    (hmem : .point q ∈ s.dropLast) : .point q ∈ v := by
  have hslash : ∀ q ∈ unescaping, q ≠ '\\' := forall_unescaping (by decide) (by decide)
  induction fuel generalizing s v with
  | zero => cases h
  | succ fuel ih =>
    obtain ⟨rfl, rfl⟩ | ⟨r, s', v', hhead, hchar, hrest, rfl⟩ := unquoteBody_cases h
    · cases hmem
    · have hs' : s' ≠ [] := by
        rintro rfl
        cases fuel with
        | zero | succ fuel => cases hrest
      obtain ⟨r₀, rfl, -, rfl⟩ | ⟨taken, rfl, -, htaken⟩ := unquoteChar_spec hchar
      · rw [dropLast_cons_of_ne_nil hs', mem_cons] at hmem
        obtain rfl | hmem := hmem
        · exact mem_cons_self
        · exact mem_cons_of_mem _ (ih hrest hmem)
      · rw [dropLast_append_of_ne_nil hs', mem_append, mem_cons] at hmem
        obtain (hfirst | htake) | hmem := hmem
        · exact absurd (point.inj hfirst) (hslash q hq)
        · exact mem_cons.mpr (.inl (htaken q hq htake).symm)
        · exact mem_cons_of_mem _ (ih hrest hmem)

/-- A text without escapes is read as it stands. -/
theorem eq_of_unquoteBody (hpoints : s.all isPoint) (hslash : .point '\\' ∉ s)
    (h : unquoteBody fuel s = some v) : s = v ++ [.point '"'] := by
  induction fuel generalizing s v with
  | zero => cases h
  | succ fuel ih =>
    obtain ⟨rfl, rfl⟩ | ⟨r, s', v', -, hchar, hrest, rfl⟩ := unquoteBody_cases h
    · rfl
    · obtain ⟨r₀, rfl, -, rfl⟩ | ⟨taken, rfl, -, -⟩ := unquoteChar_spec hchar
      · simp only [all_cons, Bool.and_eq_true] at hpoints
        rw [ih hpoints.2 (fun hmem => hslash (mem_cons_of_mem _ hmem)) hrest]
        cases r₀ with
        | point c => rfl
        | stray b => cases hpoints.1
      · simp at hslash

/-! ## Reading what was written -/

theorem unhex_hexRune {n : Nat} (hn : n < 16) : unhex (hexRune n) = some n := by
  revert hn
  revert n
  decide

theorem readHex_add (width more n : Nat) (s : Runes) :
    readHex (width + more) n s = (readHex width n s).bind fun d => readHex more d.1 d.2 := by
  induction width generalizing n s with
  | zero => rw [Nat.zero_add]; rfl
  | succ width ih =>
    rw [Nat.succ_add]
    cases s with
    | nil => rfl
    | cons r s =>
      rw [readHex, readHex, bind_assoc]
      exact congrArg _ (funext fun d => ih (16 * n + d) s)

/-- Hexadecimal digits are read back as the number that they write. -/
theorem readHex_hexRunes (width n m : Nat) (s : Runes) :
    readHex width n (hexRunes width m ++ s) = some (n * 16 ^ width + m % 16 ^ width, s) := by
  induction width generalizing m s with
  | zero => simp [hexRunes, readHex, Nat.mod_one]
  | succ width ih =>
    have hdigit := unhex_hexRune (Nat.mod_lt m (by omega : 0 < 16))
    rw [hexRunes, append_assoc, readHex_add, ih, bind_some]
    show (unhex (hexRune (m % 16))).bind _ = _
    rw [hdigit]
    have hmod : m % 16 ^ (width + 1) = m / 16 % 16 ^ width * 16 + m % 16 := by
      rw [Nat.pow_succ', Nat.mod_mul, Nat.add_comm, Nat.mul_comm]
    show some (16 * (n * 16 ^ width + m / 16 % 16 ^ width) + m % 16, s) = _
    rw [hmod, Nat.pow_succ, ← Nat.mul_assoc]
    congr 2
    omega

theorem readHex_hexRunes_of_lt {width m : Nat} (h : m < 16 ^ width) (s : Runes) :
    readHex width 0 (hexRunes width m ++ s) = some (m, s) := by
  rw [readHex_hexRunes, Nat.zero_mul, Nat.zero_add, Nat.mod_eq_of_lt h]

theorem ofByte_toNat {c : Char} (hc : c.toNat < 128) :
    ofByte (UInt8.ofNat c.toNat) = .point c := by
  have hnat : (UInt8.ofNat c.toNat).toNat = c.toNat :=
    UInt8.toNat_ofNat_of_lt' (by show c.toNat < 256; omega)
  have hlt : UInt8.ofNat c.toNat < 128 := UInt8.lt_iff_toNat_lt.mpr (by rw [hnat]; exact hc)
  rw [ofByte, if_pos hlt, hnat, Char.ofNat_toNat]

theorem unescape_short {e : Char × Char} (he : e ∈ shortEscapeOf) (s : Runes) :
    unescape (.point e.2 :: s) = some (.point e.1, s) := by
  simp only [shortEscapeOf, mem_cons, not_mem_nil, or_false] at he
  obtain rfl | rfl | rfl | rfl | rfl | rfl | rfl := he
  all_goals rfl

theorem isPrint_newline : u.isPrint '\n' = false := rfl

/-- One rune, written and read: the same bytes. -/
theorem unquoteChar_quoteRune (s : Runes) :
    ∃ r', unquoteChar (quoteRune u r ++ s) = some (r', s) ∧ r'.bytes = r.bytes := by
  cases r with
  | stray b =>
    refine ⟨.ofByte b, ?_, bytes_ofByte b⟩
    show (readHex 2 0 (hexRunes 2 b.toNat ++ s)).map _ = _
    rw [readHex_hexRunes_of_lt b.toNat_lt, map_some, UInt8.ofNat_toNat]
  | point c =>
    have hvalid : c.toNat.isValidChar := c.valid
    have hofNat : Char.ofNat c.toNat = c := Char.ofNat_toNat c
    rw [quoteRune]
    split
    next h =>
      refine ⟨.point c, ?_, rfl⟩
      obtain rfl | rfl := h <;> rfl
    next h =>
      rw [not_or] at h
      split
      next hprint =>
        refine ⟨.point c, ?_, rfl⟩
        rw [singleton_append, unquoteChar]
        · rfl
        · intro hc
          rw [point.inj hc, isPrint_newline] at hprint
          cases hprint
        · exact fun hc => h.2 (point.inj hc)
      next =>
        split
        next e he =>
          obtain ⟨before, after, hescapes, -⟩ := lookup_eq_some_iff.mp he
          exact ⟨.point c, unescape_short (e := (c, e)) (by simp [hescapes]) s, rfl⟩
        next =>
          refine ⟨.point c, ?_, rfl⟩
          split
          next hc =>
            show (readHex 2 0 (hexRunes 2 c.toNat ++ s)).map _ = _
            rw [readHex_hexRunes_of_lt (by omega), map_some, ofByte_toNat (by omega)]
          next =>
            split
            next hc =>
              show (readHex 4 0 (hexRunes 4 c.toNat ++ s)).bind _ = _
              rw [readHex_hexRunes_of_lt (by omega), bind_some, if_pos hvalid, hofNat]
            next =>
              show (readHex 8 0 (hexRunes 8 c.toNat ++ s)).bind _ = _
              have hlt : c.toNat < 0x110000 := by
                obtain hc | hc := hvalid
                · omega
                · exact hc.2
              rw [readHex_hexRunes_of_lt (by omega), bind_some, if_pos hvalid, hofNat]

theorem head?_quoteRune_ne (s : Runes) :
    (quoteRune u r ++ s).head? ≠ some (.point '"') := by
  cases r with
  | stray b => nofun
  | point c =>
    rw [quoteRune]
    split
    next => nofun
    next h =>
      rw [not_or] at h
      split
      next => exact fun hc => h.1 (point.inj (some.inj hc))
      next =>
        split
        next => nofun
        next =>
          split
          next => nofun
          next =>
            split <;> nofun

theorem quoteRune_ne_nil : quoteRune u r ≠ [] := by
  intro h
  obtain ⟨r', hchar, -⟩ := unquoteChar_quoteRune u r []
  rw [h] at hchar
  cases hchar

theorem length_le_flatMap_quoteRune (s : Runes) : s.length ≤ (s.flatMap (quoteRune u)).length := by
  induction s with
  | nil => exact le_rfl
  | cons r s ih =>
    have hr := length_pos_iff.mpr (quoteRune_ne_nil u r)
    rw [flatMap_cons, length_append, length_cons]
    omega

/-- The body of a quoted text is read back, up to the bytes that its runes stand for. -/
theorem unquoteBody_quote (s : Runes) (fuel : Nat) (h : s.length < fuel) :
    ∃ v, unquoteBody fuel (s.flatMap (quoteRune u) ++ [.point '"']) = some v ∧
      encode v = encode s := by
  induction s generalizing fuel with
  | nil =>
    obtain ⟨fuel, rfl⟩ := Nat.exists_eq_add_of_le' h
    exact ⟨[], rfl, rfl⟩
  | cons r s ih =>
    rw [length_cons] at h
    obtain ⟨fuel, rfl⟩ := Nat.exists_eq_add_of_le' (show 1 ≤ fuel by omega)
    obtain ⟨v, hv, hbytes⟩ := ih fuel (by omega)
    obtain ⟨r', hchar, hr'⟩ :=
      unquoteChar_quoteRune u r (s.flatMap (quoteRune u) ++ [.point '"'])
    have hhead := head?_quoteRune_ne u r (s.flatMap (quoteRune u) ++ [.point '"'])
    refine ⟨r' :: v, ?_, by rw [encode_cons, encode_cons, hr', hbytes]⟩
    rw [flatMap_cons, append_assoc, unquoteBody,
      if_neg (fun heq => hhead (by rw [heq]; rfl)), if_neg hhead, hchar, bind_some, hv]
    rfl

/-- Unquoting undoes quoting, up to the decoding of stray bytes. -/
theorem unquote_quote (s : Runes) : unquote (quote u s) = some (decode (encode s)) := by
  have hlength : s.length < (s.flatMap (quoteRune u) ++ [point '"']).length := by
    rw [length_append]
    exact Nat.lt_succ_of_le (length_le_flatMap_quoteRune u s)
  obtain ⟨v, hv, hbytes⟩ := unquoteBody_quote u s _ hlength
  rw [quote, unquote, hv, map_some, hbytes]

/-! ## Text in ASCII -/

/-- A rune that is an ASCII character. -/
def Rune.IsAscii : Prop := ∃ c, r = .point c ∧ c.toNat < 128

theorem decodeRune_ascii {c : Char} (hc : c.toNat < 128) (bs : List UInt8) :
    decodeRune (UInt8.ofNat c.toNat) bs = (.point c, bs) := by
  have hnat : (UInt8.ofNat c.toNat).toNat = c.toNat :=
    UInt8.toNat_ofNat_of_lt' (by show c.toNat < 256; omega)
  have hbytes : String.utf8EncodeChar c = [UInt8.ofNat c.toNat] := by
    have h := bytes_ofByte (UInt8.ofNat c.toNat)
    rwa [ofByte_toNat hc] at h
  have hcode : IsCode (UInt8.ofNat c.toNat :: bs) 1 := by
    rw [IsCode, take_succ_cons, take_zero, payload, hnat, Char.ofNat_toNat, hbytes]
  rw [decodeRune, find?_cons_of_pos (by simpa using hcode)]
  simp [payload, hnat, Char.ofNat_toNat]

/-- ASCII runes survive encoding and decoding. -/
theorem decode_encode_of_ascii (h : ∀ r ∈ s, r.IsAscii) : decode (encode s) = s := by
  induction s with
  | nil => rfl
  | cons r s ih =>
    obtain ⟨c, rfl, hc⟩ := h r mem_cons_self
    have hbytes : bytes (.point c) = [UInt8.ofNat c.toNat] := by
      have hone := bytes_ofByte (UInt8.ofNat c.toNat)
      rwa [ofByte_toNat hc] at hone
    rw [encode_cons, hbytes, singleton_append, decode, length_cons, decodeUpTo,
      decodeRune_ascii hc]
    exact congrArg _ (ih fun r hr => h r (mem_cons_of_mem _ hr))

/-! ## Strings as bytes

The operations that look at characters decode the bytes first; those that compare and sort go by
the bytes themselves. -/

/-- A string, byte by byte. -/
abbrev Bytes : Type := List UInt8

/-- The order of `sort.Strings`. -/
instance : LinearOrder Bytes :=
  LinearOrder.lift' (fun s : Bytes => s.map UInt8.toNat)
    (List.map_injective_iff.mpr fun _ _ h => UInt8.toNat_inj.mp h)

/-- A string that a program spells out. -/
def bytes (s : String) : Bytes := s.toList.flatMap String.utf8EncodeChar

/-- The byte of an ASCII character. -/
def byte (c : Char) : UInt8 := UInt8.ofNat c.toNat

/-- `bytes.TrimSpace` and `strings.TrimSpace`. -/
def trimSpaceBytes (s : Bytes) : Bytes :=
  encode (((decode s).dropWhile (Rune.is isSpace)).rdropWhile (Rune.is isSpace))

/-- `strings.Trim` with a set of ASCII characters. -/
def trimBytes (cut s : Bytes) : Bytes := (s.dropWhile cut.contains).rdropWhile cut.contains

/-- The string before the first place of a byte and the string behind it. -/
def cutByte (c : UInt8) : Bytes → Option (Bytes × Bytes)
  | [] => none
  | d :: s => if d = c then some ([], s) else (cutByte c s).map fun p => (d :: p.1, p.2)

/-- `strconv.Unquote`. -/
def unquoteBytes (s : Bytes) : Option Bytes := (unquoteAny (decode s)).map encode

end LokiVlProxy.Foundation
