/-
  Foundation/JsonText.lean --- maps of texts printed as JSON objects.

  After encoding/json: `Marshal` prints the entries of a map by ascending key and escapes the
  quotation mark, the backslash, the control characters, `<`, `>`, `&` and the two line
  separators.
-/
import LokiVlProxy.Foundation.Text
import LokiVlProxy.Foundation.SortedMap
import Mathlib.Data.String.Basic

namespace LokiVlProxy.Foundation

open List

/-- A hexadecimal digit, in lower case. -/
def hexDigit (n : Nat) : Char := if n < 10 then Char.ofNat (48 + n) else Char.ofNat (87 + n)

variable (c : Char)

/-- The value of a hexadecimal digit. -/
def hexValue : Nat := if c.toNat < 58 then c.toNat - 48 else c.toNat - 87

/-- The characters printed as `\u` and four digits. -/
def hexEscaped : Bool :=
  c.toNat < 32 || c = '<' || c = '>' || c = '&' || c.toNat = 0x2028 || c.toNat = 0x2029

/-- The characters with an escape of one letter, with that letter. -/
def shortEscapes : List (Char × Char) :=
  [('"', '"'), ('\\', '\\'), ('\n', 'n'), ('\r', 'r'), ('\t', 't'), (Char.ofNat 8, 'b'),
    (Char.ofNat 12, 'f')]

def escapeChar : Text :=
  match shortEscapes.find? fun e => e.1 = c with
  | some e => ['\\', e.2]
  | none =>
      if hexEscaped c then
        ['\\', 'u', hexDigit (c.toNat / 4096 % 16), hexDigit (c.toNat / 256 % 16),
          hexDigit (c.toNat / 16 % 16), hexDigit (c.toNat % 16)]
      else [c]

/-- A JSON string. -/
def quoteJson (s : Text) : Text := '"' :: (s.flatMap escapeChar ++ ['"'])

/-- One entry of a JSON object. -/
def entryJson (e : Text × Text) : Text := quoteJson e.1 ++ ':' :: quoteJson e.2

/-- The entries of a JSON object, with commas between them. -/
def entriesJson : List (Text × Text) → Text
  | [] => []
  | [e] => entryJson e
  | e :: e' :: es => entryJson e ++ ',' :: entriesJson (e' :: es)

/-- `json.Marshal` of a `map[string]string`. -/
def marshalMap (m : SortedMap Text Text) : Text := '{' :: (entriesJson m.entries ++ ['}'])

/-! ## Nothing is lost -/

/-- The first character of an escaped text and what follows it. -/
def readChar : Text → Option (Char × Text)
  | [] => none
  | '\\' :: 'u' :: h₃ :: h₂ :: h₁ :: h₀ :: rest =>
      some (Char.ofNat (hexValue h₃ * 4096 + hexValue h₂ * 256 + hexValue h₁ * 16 + hexValue h₀), rest)
  | '\\' :: letter :: rest => (shortEscapes.find? fun e => e.2 = letter).map fun e => (e.1, rest)
  | c :: rest => some (c, rest)

theorem hexValue_hexDigit {n : Nat} (hn : n < 16) : hexValue (hexDigit n) = n := by
  have h : ∀ n < 16, hexValue (hexDigit n) = n := by decide
  exact h n hn

theorem lt_of_hexEscaped {c : Char} (h : hexEscaped c = true) : c.toNat < 65536 := by
  simp only [hexEscaped, Bool.or_eq_true, decide_eq_true_eq] at h
  rcases h with ((((h | rfl) | rfl) | rfl) | h) | h
  · omega
  · decide
  · decide
  · decide
  · omega
  · omega

/-- A character is read back from its escape, whatever follows. -/
theorem readChar_escapeChar (rest : Text) :
    readChar (escapeChar c ++ rest) = some (c, rest) := by
  unfold escapeChar
  split
  · next e he =>
    have hmem := mem_of_find?_eq_some he
    have hc : e.1 = c := by simpa using find?_some he
    subst hc
    simp only [shortEscapes, mem_cons, not_mem_nil, or_false] at hmem
    rcases hmem with rfl | rfl | rfl | rfl | rfl | rfl | rfl <;> rfl
  · next hnone =>
    split
    · next hhex =>
      have hlt := lt_of_hexEscaped hhex
      simp only [cons_append, nil_append, readChar]
      rw [hexValue_hexDigit (by omega), hexValue_hexDigit (by omega), hexValue_hexDigit (by omega),
        hexValue_hexDigit (by omega)]
      have hsum : c.toNat / 4096 % 16 * 4096 + c.toNat / 256 % 16 * 256 + c.toNat / 16 % 16 * 16 +
          c.toNat % 16 = c.toNat := by omega
      rw [hsum, Char.ofNat_toNat]
    · have hc : c ≠ '\\' := by
        rintro rfl
        exact absurd hnone (by decide)
      unfold readChar
      split <;> simp_all

theorem head?_escapeChar (rest : Text) : (escapeChar c ++ rest).head? ≠ some '"' := by
  unfold escapeChar
  split
  · simp
  · next hnone =>
    split
    · simp
    · have hc : c ≠ '"' := by
        rintro rfl
        exact absurd hnone (by decide)
      simpa using hc

/-- A quoted text ends where its quotes do. -/
theorem quoteJson_append_inj {s t x y : Text} (h : quoteJson s ++ x = quoteJson t ++ y) :
    s = t ∧ x = y := by
  simp only [quoteJson, cons_append, append_assoc, cons.injEq, true_and,
    nil_append] at h
  induction s generalizing t with
  | nil =>
    cases t with
    | nil => simpa using h
    | cons d t =>
      have hhead := congrArg List.head? h
      simp only [flatMap_cons, append_assoc] at hhead
      exact absurd hhead.symm (head?_escapeChar d _)
  | cons c s ih =>
    cases t with
    | nil =>
      have hhead := congrArg List.head? h
      simp only [flatMap_cons, append_assoc] at hhead
      exact absurd hhead (head?_escapeChar c _)
    | cons d t =>
      have hread := congrArg readChar h
      simp only [flatMap_cons, append_assoc, readChar_escapeChar, Option.some.injEq,
        Prod.mk.injEq] at hread
      obtain ⟨hst, hxy⟩ := ih hread.2
      exact ⟨by rw [hread.1, hst], hxy⟩

theorem entryJson_append_inj {e f : Text × Text} {x y : Text}
    (h : entryJson e ++ x = entryJson f ++ y) : e = f ∧ x = y := by
  simp only [entryJson, append_assoc, cons_append] at h
  obtain ⟨hk, h⟩ := quoteJson_append_inj h
  obtain ⟨hv, hxy⟩ := quoteJson_append_inj (cons.inj h).2
  exact ⟨Prod.ext hk hv, hxy⟩

theorem entriesJson_inj {es fs : List (Text × Text)}
    (h : entriesJson es ++ ['}'] = entriesJson fs ++ ['}']) : es = fs := by
  induction es using entriesJson.induct generalizing fs with
  | case1 =>
    fun_cases entriesJson fs with
    | case1 => rfl
    | case2 f | case3 f f' fs => simp [entriesJson, entryJson, quoteJson] at h
  | case2 e =>
    fun_cases entriesJson fs with
    | case1 => simp [entriesJson, entryJson, quoteJson] at h
    | case2 f => rw [(entryJson_append_inj h).1]
    | case3 f f' fs =>
      rw [entriesJson, entriesJson, append_assoc] at h
      exact absurd (entryJson_append_inj h).2 (by simp)
  | case3 e e' es ih =>
    fun_cases entriesJson fs with
    | case1 => simp [entriesJson, entryJson, quoteJson] at h
    | case2 f =>
      rw [entriesJson, entriesJson, append_assoc] at h
      exact absurd (entryJson_append_inj h).2 (by simp)
    | case3 f f' fs =>
      rw [entriesJson, entriesJson, append_assoc, append_assoc] at h
      obtain ⟨he, hrest⟩ := entryJson_append_inj h
      rw [he, ih (cons.inj hrest).2]

/-- The JSON text of a map determines the map. -/
theorem marshalMap_injective {m n : SortedMap Text Text} (h : marshalMap m = marshalMap n) :
    m = n := by
  have hentries := entriesJson_inj (cons.inj h).2
  cases m
  cases n
  simpa using hentries

end LokiVlProxy.Foundation
