/-
  Foundation/QueryEncoding.lean --- query strings, as `net/url` writes them.

  `queryEscape` keeps letters, digits and four signs, writes a blank as a plus and every other
  character as the percent codes of its UTF-8 bytes.
-/
import LokiVlProxy.Foundation.Quoting

namespace LokiVlProxy.Foundation

open List

/-- An upper-case hexadecimal digit. -/
def upperHex (n : Nat) : Char := Char.ofNat (if n < 10 then 48 + n else 55 + n)

/-- The value of an upper-case hexadecimal digit. -/
def upperHexValue (c : Char) : Nat := if c.toNat < 58 then c.toNat - 48 else c.toNat - 55

/-- The percent code of a byte. -/
def percentCode (b : UInt8) : Text := ['%', upperHex (b.toNat / 16), upperHex (b.toNat % 16)]

/-- The characters that are written as they are. -/
def unreserved (c : Char) : Bool := c.isAlphanum || ['-', '_', '.', '~'].contains c

/-- One character. -/
def escapeQueryChar (c : Char) : Text :=
  if unreserved c then [c]
  else if c = ' ' then ['+']
  else (String.utf8EncodeChar c).flatMap percentCode

def queryEscape (text : Text) : Text := text.flatMap escapeQueryChar

/-- A pair with its equals sign. -/
def encodePair (e : Text × Text) : Text := queryEscape e.1 ++ '=' :: queryEscape e.2

/-- `url.Values.Encode`, for pairs that are already in order. -/
def encodePairs (pairs : List (Text × Text)) : Text := ['&'].intercalate (pairs.map encodePair)

/-! ## Reading it back -/

/-- The bytes that percent codes at the front of a text stand for. -/
def readPercentCodes : Text → List UInt8
  | '%' :: a :: b :: rest =>
    UInt8.ofNat (upperHexValue a * 16 + upperHexValue b) :: readPercentCodes rest
  | _ => []

theorem upperHexValue_upperHex {n : Nat} (hn : n < 16) : upperHexValue (upperHex n) = n := by
  have h : ∀ n < 16, upperHexValue (upperHex n) = n := by decide
  exact h n hn

/-- The percent codes of bytes are read back as these bytes. -/
theorem readPercentCodes_append (bytes : List UInt8) (x : Text) :
    readPercentCodes (bytes.flatMap percentCode ++ x) = bytes ++ readPercentCodes x := by
  induction bytes with
  | nil => rfl
  | cons b bytes ih =>
    have hb := b.toNat_lt
    have hbyte : UInt8.ofNat (upperHexValue (upperHex (b.toNat / 16)) * 16 +
        upperHexValue (upperHex (b.toNat % 16))) = b := by
      rw [upperHexValue_upperHex (by omega), upperHexValue_upperHex (by omega),
        Nat.div_add_mod', UInt8.ofNat_toNat]
    rw [flatMap_cons, append_assoc, percentCode, cons_append, cons_append,
      cons_append, nil_append, readPercentCodes, hbyte, ih, cons_append]

variable {c : Char}

theorem utf8EncodeChar_append_inj {d : Char} {x y : List UInt8}
    (h : String.utf8EncodeChar c ++ x = String.utf8EncodeChar d ++ y) : c = d := by
  have hread : ∀ (e : Char) (z : List UInt8),
      (String.utf8EncodeChar e ++ z).toByteArray.utf8DecodeChar? 0 = some e := by
    intro e z
    rw [toByteArray_append]
    exact ByteArray.utf8DecodeChar?_utf8EncodeChar_append
  exact Option.some.inj ((hread c x).symm.trans (h ▸ hread d y))

/-- The three ways in which a character is written. -/
theorem exists_escapeQueryChar (c : Char) :
    (unreserved c = true ∧ escapeQueryChar c = [c]) ∨
      (c = ' ' ∧ escapeQueryChar c = ['+']) ∨
        ∃ rest, escapeQueryChar c = (String.utf8EncodeChar c).flatMap percentCode ∧
          escapeQueryChar c = '%' :: rest := by
  rw [escapeQueryChar]
  split_ifs with hkept hblank
  · exact .inl ⟨hkept, rfl⟩
  · exact .inr (.inl ⟨hblank, rfl⟩)
  · obtain ⟨b, bytes, hbytes⟩ := exists_cons_of_ne_nil (String.utf8EncodeChar_ne_nil (c := c))
    exact .inr (.inr ⟨_, rfl, by rw [hbytes]; rfl⟩)

theorem escapeQueryChar_ne_nil (c : Char) : escapeQueryChar c ≠ [] := by
  rcases exists_escapeQueryChar c with ⟨-, h⟩ | ⟨-, h⟩ | ⟨rest, -, h⟩ <;> simp [h]

theorem unreserved_ne (hc : unreserved c = true) :
    c ≠ '+' ∧ c ≠ '%' ∧ c ≠ '&' ∧ c ≠ '=' ∧ c ≠ ':' := by
  refine ⟨?_, ?_, ?_, ?_, ?_⟩ <;>
  · rintro rfl
    exact absurd hc (by decide)

/-- The code of a character is told apart from every other one. -/
theorem escapeQueryChar_append_inj {d : Char} {x y : Text}
    (h : escapeQueryChar c ++ x = escapeQueryChar d ++ y) : c = d ∧ x = y := by
  suffices hcd : c = d by
    subst hcd
    exact ⟨rfl, append_cancel_left h⟩
  -- the first character tells the three kinds apart
  rcases exists_escapeQueryChar c with ⟨hc, hec⟩ | ⟨hc, hec⟩ | ⟨rest, hbytes, hec⟩ <;>
    rcases exists_escapeQueryChar d with ⟨hd, hed⟩ | ⟨hd, hed⟩ | ⟨rest', hbytes', hed⟩ <;>
    have hfirst := h <;> rw [hec, hed] at hfirst
  · exact (cons.inj hfirst).1
  · exact absurd (cons.inj hfirst).1 (unreserved_ne hc).1
  · exact absurd (cons.inj hfirst).1 (unreserved_ne hc).2.1
  · exact absurd (cons.inj hfirst).1.symm (unreserved_ne hd).1
  · rw [hc, hd]
  · exact absurd (cons.inj hfirst).1 (by decide)
  · exact absurd (cons.inj hfirst).1.symm (unreserved_ne hd).2.1
  · exact absurd (cons.inj hfirst).1 (by decide)
  · have hread := congrArg readPercentCodes h
    rw [hbytes, hbytes', readPercentCodes_append, readPercentCodes_append] at hread
    exact utf8EncodeChar_append_inj hread

/-- An escaped text determines the text. -/
theorem queryEscape_injective : Function.Injective queryEscape :=
  flatMap_injective escapeQueryChar_ne_nil fun _ _ _ _ => escapeQueryChar_append_inj

/-- No separator and no colon is written. -/
theorem notMem_queryEscape (hc : c = '&' ∨ c = '=' ∨ c = ':') (text : Text) :
    c ∉ queryEscape text := by
  have hhex : ∀ n < 16, upperHex n ≠ '&' ∧ upperHex n ≠ '=' ∧ upperHex n ≠ ':' := by decide
  intro hmem
  obtain ⟨d, -, hd⟩ := mem_flatMap.mp hmem
  rcases exists_escapeQueryChar d with ⟨hkept, hesc⟩ | ⟨-, hesc⟩ | ⟨rest, hesc, -⟩
  · rw [hesc, mem_singleton] at hd
    obtain ⟨-, -, hamp, heq, hcolon⟩ := unreserved_ne hkept
    rw [← hd] at hamp heq hcolon
    rcases hc with h | h | h
    · exact hamp h
    · exact heq h
    · exact hcolon h
  · rw [hesc, mem_singleton] at hd
    subst hd
    exact absurd hc (by decide)
  · rw [hesc] at hd
    obtain ⟨b, -, hb⟩ := mem_flatMap.mp hd
    have hlt := b.toNat_lt
    have hhigh := hhex (b.toNat / 16) (by omega)
    have hlow := hhex (b.toNat % 16) (by omega)
    simp only [percentCode, mem_cons, not_mem_nil, or_false] at hb
    rcases hb with rfl | rfl | rfl
    · exact absurd hc (by decide)
    · rcases hc with h | h | h
      · exact hhigh.1 h
      · exact hhigh.2.1 h
      · exact hhigh.2.2 h
    · rcases hc with h | h | h
      · exact hlow.1 h
      · exact hlow.2.1 h
      · exact hlow.2.2 h

theorem encodePair_injective : Function.Injective encodePair := by
  intro e e' h
  obtain ⟨hname, hvalue⟩ := append_cons_inj_of_notMem
    (notMem_queryEscape (.inr (.inl rfl)) e.1) (notMem_queryEscape (.inr (.inl rfl)) e'.1) h
  exact Prod.ext (queryEscape_injective hname) (queryEscape_injective hvalue)

theorem notMem_encodePair (hc : c = '&' ∨ c = ':') (e : Text × Text) : c ∉ encodePair e := by
  have hesc : ∀ text, c ∉ queryEscape text :=
    notMem_queryEscape (hc.imp_right .inr)
  intro hmem
  rcases mem_append.mp hmem with h | h
  · exact hesc _ h
  · rcases mem_cons.mp h with rfl | h
    · exact absurd hc (by decide)
    · exact hesc _ h

theorem splitOn_encodePairs {pairs : List (Text × Text)} (hne : pairs ≠ []) :
    (encodePairs pairs).splitOn '&' = pairs.map encodePair := by
  refine splitOn_intercalate '&' (fun l hl => ?_) (by simpa using hne)
  obtain ⟨e, -, rfl⟩ := mem_map.mp hl
  exact notMem_encodePair (.inl rfl) e

/-- An encoded query determines its pairs. -/
theorem encodePairs_injective : Function.Injective encodePairs := by
  have hnil : ∀ e pairs, encodePairs [] ≠ encodePairs (e :: pairs) := by
    intro e pairs h
    have hsplit := splitOn_encodePairs (cons_ne_nil e pairs)
    rw [← h] at hsplit
    obtain ⟨hpiece, -⟩ := cons.inj hsplit
    exact absurd hpiece (by simp [encodePair])
  intro pairs pairs' h
  cases pairs with
  | nil =>
    cases pairs' with
    | nil => rfl
    | cons e' pairs' => exact absurd h (hnil e' pairs')
  | cons e pairs =>
    cases pairs' with
    | nil => exact absurd h.symm (hnil e pairs)
    | cons e' pairs' =>
      apply map_injective_iff.mpr encodePair_injective
      rw [← splitOn_encodePairs (cons_ne_nil e pairs),
        ← splitOn_encodePairs (cons_ne_nil e' pairs'), h]

theorem notMem_encodePairs (pairs : List (Text × Text)) : ':' ∉ encodePairs pairs := by
  have hpieces : ∀ pieces : List Text, (∀ l ∈ pieces, ':' ∉ l) →
      ':' ∉ ['&'].intercalate pieces := by
    intro pieces hpieces
    induction pieces with
    | nil => simp
    | cons l pieces ih =>
      have hl := hpieces l mem_cons_self
      have htail := ih fun l' hl' => hpieces l' (mem_cons_of_mem l hl')
      cases pieces with
      | nil => simpa using hl
      | cons l' pieces =>
        rw [intercalate_cons_cons]
        simp only [mem_append, mem_singleton, not_or]
        exact ⟨⟨hl, by decide⟩, htail⟩
  refine hpieces _ fun l hl => ?_
  obtain ⟨e, -, rfl⟩ := mem_map.mp hl
  exact notMem_encodePair (.inr rfl) e

/-! ## Byte by byte

`url.Values.Encode` and `url.ParseQuery`. -/

/-! ## White space at the ends -/

variable (b : UInt8)

/-- The printed characters of ASCII. -/
def visibleByte : Bool := 32 < b.toNat && b.toNat < 127

theorem not_isSpace_of_visible {r : Rune} {b : UInt8} (hb : b ∈ r.bytes)
    (hvisible : visibleByte b = true) : r.is isSpace = false := by
  cases r with
  | stray _ => rfl
  | point c =>
    rw [visibleByte, Bool.and_eq_true, decide_eq_true_eq, decide_eq_true_eq] at hvisible
    have hc := toNat_of_mem_utf8EncodeChar hb (by omega)
    simp only [Rune.is, isSpace, hc]
    simp
    omega

/-- A string that begins and ends with visible characters is trimmed. -/
theorem trimSpaceBytes_of_visible {s : Bytes} (hhead : ∀ b ∈ s.head?, visibleByte b = true)
    (hlast : ∀ b ∈ s.getLast?, visibleByte b = true) : trimSpaceBytes s = s := by
  have hs := encode_decode s
  have hfront : (decode s).dropWhile (Rune.is isSpace) = decode s := by
    cases hd : decode s with
    | nil => rfl
    | cons r rest =>
      obtain ⟨b, bs, hr⟩ := exists_cons_of_ne_nil r.bytes_ne_nil
      rw [hd, encode_cons, hr, cons_append] at hs
      refine dropWhile_cons_of_neg ?_
      rw [not_isSpace_of_visible (by rw [hr]; exact mem_cons_self) (hhead b (by rw [← hs]; rfl))]
      exact Bool.false_ne_true
  have hback : (decode s).rdropWhile (Rune.is isSpace) = decode s := by
    rw [rdropWhile_eq_self_iff]
    intro hne
    obtain ⟨init, r, hd⟩ := eq_nil_or_concat (decode s) |>.resolve_left hne
    obtain ⟨bs, b, hr⟩ := eq_nil_or_concat r.bytes |>.resolve_left r.bytes_ne_nil
    have hlastRune : (decode s).getLast hne = r := by simp [hd]
    rw [hd, concat_eq_append, encode_append, encode_cons, hr] at hs
    have hb : b ∈ s.getLast? := by
      rw [← hs]
      simp [encode]
    rw [hlastRune, not_isSpace_of_visible (by rw [hr]; simp) (hlast b hb)]
    exact Bool.false_ne_true
  rw [trimSpaceBytes, hfront, hback, hs]

theorem trimSpaceBytes_ne_nil {s : Bytes} {b : UInt8} (hb : b ∈ s) (hvisible : visibleByte b = true) :
    trimSpaceBytes s ≠ [] := by
  rw [← encode_decode s] at hb
  obtain ⟨r, hr, hbyte⟩ := mem_flatMap.mp hb
  have hkept : r ∈ trim (Rune.is isSpace) (decode s) :=
    mem_trim hr (not_isSpace_of_visible hbyte hvisible)
  exact ne_nil_of_mem (mem_flatMap.mpr ⟨r, hkept, hbyte⟩)

/-! ## Escaping -/

/-- The bytes that are written as they are. -/
def unreservedByte : Bool :=
  (48 ≤ b.toNat && b.toNat ≤ 57) || (65 ≤ b.toNat && b.toNat ≤ 90) ||
    (97 ≤ b.toNat && b.toNat ≤ 122) || [45, 95, 46, 126].contains b.toNat

def hexByte (n : Nat) : UInt8 := UInt8.ofNat (if n < 10 then 48 + n else 55 + n)

/-- The value of a hexadecimal digit in either case. -/
def hexByteValue : Option Nat :=
  let n := b.toNat
  if 48 ≤ n ∧ n ≤ 57 then some (n - 48)
  else if 65 ≤ n ∧ n ≤ 70 then some (n - 55)
  else if 97 ≤ n ∧ n ≤ 102 then some (n - 87)
  else none

def escapeByte : Bytes :=
  if unreservedByte b then [b]
  else if b = 32 then [43]
  else [37, hexByte (b.toNat / 16), hexByte (b.toNat % 16)]

/-- `url.QueryEscape`. -/
def escapeQuery (s : Bytes) : Bytes := s.flatMap escapeByte

/-- `url.QueryUnescape`; `none` is a malformed percent code. -/
def unescapeQuery : Bytes → Option Bytes
  | [] => some []
  | c :: s =>
      if c = 37 then
        match s with
        | a :: b :: rest =>
            match hexByteValue a, hexByteValue b with
            | some m, some n => (unescapeQuery rest).map (UInt8.ofNat (m * 16 + n) :: ·)
            | _, _ => none
        | _ => none
      else (unescapeQuery s).map ((if c = 43 then 32 else c) :: ·)

theorem hexByteValue_hexByte {n : Nat} (hn : n < 16) : hexByteValue (hexByte n) = some n := by
  have h : ∀ n < 16, hexByteValue (hexByte n) = some n := by decide
  exact h n hn

variable {c : UInt8}

theorem unescapeQuery_cons (hc : c ≠ 37) (s : Bytes) :
    unescapeQuery (c :: s) = (unescapeQuery s).map ((if c = 43 then 32 else c) :: ·) := by
  rw [unescapeQuery.eq_def]
  simp only [if_neg hc]

theorem unescapeQuery_cons_unreserved {b : UInt8} (hb : unreservedByte b = true) (t : Bytes) :
    unescapeQuery (b :: t) = (unescapeQuery t).map (b :: ·) := by
  have hpercent : b ≠ 37 := fun h => by rw [h] at hb; exact absurd hb (by decide)
  have hplus : b ≠ 43 := fun h => by rw [h] at hb; exact absurd hb (by decide)
  rw [unescapeQuery_cons hpercent, if_neg hplus]

/-- A byte is read back from its escape, whatever follows. -/
theorem unescapeQuery_escapeByte (t : Bytes) :
    unescapeQuery (escapeByte b ++ t) = (unescapeQuery t).map (b :: ·) := by
  rw [escapeByte]
  split
  · rename_i hb
    exact unescapeQuery_cons_unreserved hb t
  split
  · rename_i hblank
    rw [hblank, singleton_append, unescapeQuery_cons (by decide), if_pos rfl]
  · have hlt := b.toNat_lt
    have hbyte : UInt8.ofNat (b.toNat / 16 * 16 + b.toNat % 16) = b := by
      rw [Nat.div_add_mod', UInt8.ofNat_toNat]
    simp only [cons_append, nil_append, unescapeQuery, if_pos,
      hexByteValue_hexByte (show b.toNat / 16 < 16 by omega),
      hexByteValue_hexByte (show b.toNat % 16 < 16 by omega), hbyte]

/-- Unescaping undoes escaping, whatever follows. -/
theorem unescapeQuery_escapeQuery (s t : Bytes) :
    unescapeQuery (escapeQuery s ++ t) = (unescapeQuery t).map (s ++ ·) := by
  induction s with
  | nil =>
    simp only [escapeQuery, flatMap_nil, nil_append]
    exact Option.map_id'.symm
  | cons b s ih =>
    rw [escapeQuery, flatMap_cons, ← escapeQuery, append_assoc, unescapeQuery_escapeByte,
      ih, Option.map_map]
    rfl

/-- The bytes that escaping writes. -/
def writtenByte : Bool := unreservedByte b || b == 43 || b == 37

theorem writtenByte_of_mem {s : Bytes} (hc : c ∈ escapeQuery s) : writtenByte c = true := by
  obtain ⟨b, -, hb⟩ := mem_flatMap.mp hc
  rw [escapeByte] at hb
  have hdigit : ∀ n < 16, writtenByte (hexByte n) = true := by decide
  have hlt := b.toNat_lt
  split at hb
  · rename_i hun
    rw [mem_singleton.mp hb, writtenByte, hun]
    rfl
  · split at hb
    · rw [mem_singleton.mp hb]
      decide
    · simp only [mem_cons, not_mem_nil, or_false] at hb
      obtain rfl | rfl | rfl := hb
      · decide
      · exact hdigit _ (by omega)
      · exact hdigit _ (by omega)

/-! ## Pairs -/

/-- A pair with its equals sign. -/
def encodePart (e : Bytes × Bytes) : Bytes := escapeQuery e.1 ++ 61 :: escapeQuery e.2

/-- `url.Values.Encode`, for pairs that are already in order. -/
def encodeValues (pairs : List (Bytes × Bytes)) : Bytes := [38].intercalate (pairs.map encodePart)

/-- One part of a query string.  A semicolon and a malformed percent code are errors. -/
def parsePart (part : Bytes) : Option (Bytes × Bytes) :=
  if 59 ∈ part then none
  else
    let kv := (cutByte 61 part).getD (part, [])
    match unescapeQuery kv.1, unescapeQuery kv.2 with
    | some k, some v => some (k, v)
    | _, _ => none

/-- `url.ParseQuery`; `none` is an error. -/
def parseQuery (s : Bytes) : Option (List (Bytes × Bytes)) :=
  ((s.splitOn 38).filter (· ≠ [])).mapM parsePart

/-- `Values.Get`. -/
def getValue (pairs : List (Bytes × Bytes)) (key : Bytes) : Bytes :=
  ((pairs.find? fun e => e.1 = key).map Prod.snd).getD []

theorem cutByte_append {a b : Bytes} (ha : c ∉ a) : cutByte c (a ++ c :: b) = some (a, b) := by
  induction a with
  | nil => simp [cutByte]
  | cons d a ih =>
    rw [mem_cons, not_or] at ha
    rw [cons_append, cutByte, if_neg (Ne.symm ha.1), ih ha.2, Option.map_some]

/-- A written pair, with something behind the value that is read as it is. -/
theorem parsePart_encodePart (e : Bytes × Bytes) {t : Bytes}
    (ht : ∀ b ∈ t, unreservedByte b = true ∨ b = 58) :
    parsePart (encodePart e ++ t) = some (e.1, e.2 ++ t) := by
  have hread : unescapeQuery t = some t := by
    induction t with
    | nil => rfl
    | cons b t ih =>
      have ih' := ih fun b' hb' => ht b' (mem_cons_of_mem _ hb')
      rcases ht b mem_cons_self with hb | rfl
      · rw [unescapeQuery_cons_unreserved hb, ih', Option.map_some]
      · rw [unescapeQuery_cons (by decide), if_neg (by decide), ih', Option.map_some]
  have hnot : ∀ c : UInt8, writtenByte c = false → ∀ s, c ∉ escapeQuery s := by
    intro c hc s hmem
    rw [writtenByte_of_mem hmem] at hc
    exact Bool.false_ne_true hc.symm
  have hsemi : 59 ∉ encodePart e ++ t := by
    rw [encodePart, append_assoc, cons_append, mem_append, mem_cons,
      mem_append, not_or, not_or, not_or]
    refine ⟨hnot 59 (by decide) _, by decide, hnot 59 (by decide) _, fun hmem => ?_⟩
    rcases ht 59 hmem with h | h <;> exact absurd h (by decide)
  have hkey := unescapeQuery_escapeQuery e.1 []
  rw [append_nil, unescapeQuery, Option.map_some, append_nil] at hkey
  rw [parsePart, if_neg hsemi, encodePart, append_assoc, cons_append,
    cutByte_append (hnot 61 (by decide) _), Option.getD_some]
  simp only [hkey, unescapeQuery_escapeQuery, hread, Option.map_some]

/-- A query of clean parts is read part by part. -/
theorem parseQuery_intercalate {parts : List Bytes} (hparts : parts ≠ [])
    (hclean : ∀ part ∈ parts, 38 ∉ part ∧ part ≠ []) :
    parseQuery ([38].intercalate parts) = parts.mapM parsePart := by
  rw [parseQuery, splitOn_intercalate 38 (fun part h => (hclean part h).1) hparts,
    filter_eq_self.mpr fun part h => decide_eq_true (hclean part h).2]

end LokiVlProxy.Foundation
