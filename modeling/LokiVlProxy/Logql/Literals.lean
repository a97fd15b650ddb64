/-
  Logql/Literals.lean --- the strings that a LogQL text writes.

  Source: internal/logql/scanner.go.

  The text of a literal up to the next quote is what a reader without escapes takes.
-/
import LokiVlProxy.Logql.Scanner

namespace LokiVlProxy.Logql.Syntax

open Foundation List

/-! ## White space around a text -/

def trimRunes (s : Runes) : Runes := (s.dropWhile (Rune.is isSpace)).rdropWhile (Rune.is isSpace)

/-- Runes that are all white space. -/
def IsGap (s : Runes) : Prop := ∀ r ∈ s, r.is isSpace = true

theorem isGap_nil : IsGap [] := forall_mem_nil _

theorem isGap_space : IsGap [.point ' '] := forall_mem_singleton.mpr rfl

variable {s : Runes}

theorem trimRunes_between {a b : Runes} (ha : IsGap a) (hb : IsGap b)
    (hhead : ∀ r ∈ s.head?, r.is isSpace = false) (hlast : ∀ r ∈ s.getLast?, r.is isSpace = false) :
    trimRunes (a ++ s ++ b) = s :=
  calc trim (Rune.is isSpace) (a ++ s ++ b)
    _ = trim (Rune.is isSpace) (a ++ s) := trim_append_right hb _
    _ = trim (Rune.is isSpace) s := trim_append_left ha s
    _ = s := trim_eq_self hhead hlast

theorem trimRunes_word {a b : Runes} (ha : IsGap a) (hb : IsGap b)
    (h : ∀ r ∈ s, r.is isSpace = false) : trimRunes (a ++ s ++ b) = s :=
  trimRunes_between ha hb (fun r hr => h r (mem_of_head? hr)) fun r hr => h r (mem_of_getLast? hr)

/-! ## Literals in double quotes -/

/-- The text up to the next double quote. -/
def upToQuote (s : Runes) : Runes := s.takeWhile (· ≠ .point '"')

theorem quote_notMem_upToQuote (s : Runes) : .point '"' ∉ upToQuote s := by
  intro h
  have := mem_takeWhile_imp h
  simp at this

/-- A text with a quote is cut at its first one. -/
theorem eq_upToQuote_append (h : .point '"' ∈ s) :
    s = upToQuote s ++ .point '"' :: s.drop ((upToQuote s).length + 1) := by
  induction s with
  | nil => cases h
  | cons r s ih =>
    rw [upToQuote, takeWhile_cons]
    split
    next hr =>
      have hr : r ≠ .point '"' := by simpa using hr
      have hs : .point '"' ∈ s := (mem_cons.mp h).resolve_left fun he => hr he.symm
      rw [cons_append]
      exact congrArg (r :: ·) (ih hs)
    next hr =>
      have hr : r = .point '"' := by simpa using hr
      rw [hr]
      rfl

theorem eq_or_mem_of_append_cons {α : Type} {c : α} {a b x y : List α} (ha : c ∉ a)
    (h : a ++ c :: x = b ++ c :: y) : a = b ∨ (c ∈ b ∧ a <+: b) := by
  obtain ⟨rest, rfl, hrest⟩ | ⟨rest, rfl, hrest⟩ := append_eq_append_iff.mp h
  · cases rest with
    | nil => exact .inl (append_nil a).symm
    | cons r rest =>
      obtain ⟨rfl, -⟩ := cons.inj hrest
      exact .inr ⟨by simp, prefix_append ..⟩
  · cases rest with
    | nil => exact .inl (append_nil b)
    | cons r rest =>
      obtain ⟨rfl, -⟩ := cons.inj hrest
      exact absurd (by simp) ha

theorem closingQuote_plain {a b : Runes} (hslash : .point '\\' ∉ a) (hquote : .point '"' ∉ a) :
    closingQuote (a ++ .point '"' :: b) = some b := by
  induction a with
  | nil => rfl
  | cons r a ih =>
    simp only [mem_cons, not_or] at hslash hquote
    rw [cons_append, closingQuote]
    · exact ih hslash.2 hquote.2
    · exact fun h => hquote.1 h.symm
    · exact fun h => absurd h.symm hslash.1
    · exact fun _ _ h => absurd h.symm hslash.1

variable {body : Runes}

/-- Induction over the escapes and the other runes of a body. -/
@[elab_as_elim]
theorem quotedBody_induction {q : Rune} {motive : Runes → Prop}
    (h : quotedBody q body = true) (nil : motive [])
    (escape : ∀ r s, motive s → motive (.point '\\' :: r :: s))
    (plain : ∀ r s, r ≠ q → r ≠ .point '\\' → motive s → motive (r :: s)) : motive body := by
  fun_induction quotedBody q body with
  | case1 => exact nil
  | case2 => cases h
  | case3 r s ih => exact escape r s (ih h)
  | case4 r s hlast hescape ih =>
    rw [Bool.and_eq_true, decide_eq_true_eq] at h
    refine plain r s h.1 ?_ (ih h.2)
    rintro rfl
    cases s with
    | nil => exact hlast rfl rfl
    | cons next s => exact hescape next s rfl rfl

/-- The closing quote of a well-formed body is the first one after it. -/
theorem closingQuote_body (h : quotedBody (.point '"') body = true) (rest : Runes) :
    closingQuote (body ++ .point '"' :: rest) = some rest := by
  refine quotedBody_induction h rfl (fun r s ih => ih) fun r s hq hslash ih => ?_
  rw [cons_append, closingQuote, ih]
  · exact hq
  · exact fun hr => absurd hr hslash
  · exact fun _ _ hr => absurd hr hslash

theorem quote_notMem_of_quotedBody {q : Rune} (h : quotedBody q body = true)
    (hslash : .point '\\' ∉ body) : q ∉ body := by
  revert hslash
  refine quotedBody_induction h (fun _ => not_mem_nil) ?_ fun r s hq _ ih hslash => ?_
  · exact fun r s _ hslash => absurd mem_cons_self hslash
  · rw [mem_cons, not_or]
    exact ⟨hq.symm, ih fun hmem => hslash (mem_cons_of_mem _ hmem)⟩

/-- What the scanner reads when it reads a string. -/
theorem scanQuotedString_ok (h : (scanQuotedString s).1.typ ≠ .tokError) :
    ∃ body v : Runes, s = body ++ .point '"' :: (scanQuotedString s).2 ∧
      closingQuote s = some (scanQuotedString s).2 ∧
      (body ++ [Rune.point '"']).all Rune.isPoint ∧
      unquoteBody (body.length + 1) (body ++ [.point '"']) = some v ∧
      (scanQuotedString s).1 = ⟨.tokString, decode (encode v)⟩ := by
  unfold scanQuotedString at h ⊢
  split at h
  next => exact absurd rfl h
  next rest hrest =>
    obtain ⟨body, rfl, -⟩ := quotedBody_of_closingQuote hrest
    have htext : (body ++ .point '"' :: rest).take
        ((body ++ .point '"' :: rest).length - rest.length) = body ++ [.point '"'] := by
      have hlength : (body ++ .point '"' :: rest).length - rest.length =
          (body ++ [Rune.point '"']).length := by
        simp only [length_append, length_cons, length_nil]
        omega
      have hsplit : body ++ .point '"' :: rest = (body ++ [.point '"']) ++ rest :=
        append_cons ..
      rw [hlength, hsplit]
      exact take_left
    rw [hrest]
    dsimp only at h ⊢
    rw [htext] at h ⊢
    split at h
    next => exact absurd rfl h
    next value hvalue =>
      split at h
      next hpoints =>
        obtain ⟨v, hv, rfl⟩ := Option.map_eq_some_iff.mp hvalue
        rw [if_pos hpoints]
        refine ⟨body, v, rfl, rfl, ?_, ?_, rfl⟩
        · simpa [Rune.isPoint] using hpoints
        · simpa using hv
      next => exact absurd rfl h

theorem all_isPoint_of_begins {t u : Runes} (h : s <+: t) (hpoints : (t ++ u).all Rune.isPoint) :
    s.all Rune.isPoint := by
  rw [all_eq_true] at hpoints ⊢
  exact fun r hr => hpoints r (mem_append_left u (h.subset hr))

theorem point_mem_of_byte_mem {c : Char} {b : UInt8} (hpoints : s.all Rune.isPoint)
    (hb : b.toNat = c.toNat ∧ c.toNat < 128) (h : b ∈ encode s) : .point c ∈ s := by
  obtain ⟨r, hr, hbyte⟩ := mem_flatMap.mp h
  have hpoint := all_eq_true.mp hpoints r hr
  cases r with
  | stray => cases hpoint
  | point d =>
    have hd : d.toNat = b.toNat := toNat_of_mem_utf8EncodeChar hbyte (by omega)
    rwa [← Char.toNat_inj.mp (hd.trans hb.1)]

/-- A text that is one string token is a quoted text that unquotes. -/
theorem scanQuotedString_all {v : Runes} (h : scanQuotedString s = (⟨.tokString, v⟩, [])) :
    closingQuote s = some [] ∧ unquote (.point '"' :: s) = some v := by
  unfold scanQuotedString at h
  split at h
  next => cases h
  next rest hrest =>
    dsimp only at h
    split at h
    next => cases h
    next value hvalue =>
      split at h
      next =>
        obtain ⟨htok, rfl⟩ := Prod.mk.inj h
        obtain rfl := (Token.mk.inj htok).2
        exact ⟨hrest, by simpa using hvalue⟩
      next => cases h

/-- The string of a literal is its text up to the next quote just when no backslash stands
there. -/
theorem scanQuotedString_val_iff (h : (scanQuotedString s).1.typ ≠ .tokError) :
    encode (scanQuotedString s).1.val = encode (upToQuote s) ↔ .point '\\' ∉ upToQuote s := by
  obtain ⟨body, v, hs, hclosing, hpoints, hv, htok⟩ := scanQuotedString_ok h
  have hquote : .point '"' ∈ s := by
    rw [hs]
    simp
  have hu := eq_upToQuote_append hquote
  have hno := quote_notMem_upToQuote s
  generalize upToQuote s = text at hu hno ⊢
  rw [htok, encode_decode]
  constructor
  · intro heq hslash
    have hbody : text ++ .point '"' :: s.drop (text.length + 1) =
        body ++ .point '"' :: (scanQuotedString s).2 := hu.symm.trans hs
    obtain rfl | hinside := eq_or_mem_of_append_cons hno hbody
    · -- An escape makes the literal longer than its string.
      have hlt := (byteSize_unquoteBody hpoints hv).2 (by simp [hslash])
      rw [byteSize_append] at hlt
      have hsize : byteSize v = byteSize text := congrArg List.length heq
      have hone : byteSize [.point '"'] = 1 := rfl
      omega
    · -- An escaped quote stands in the string and not in the text before it.
      have hmem : .point '"' ∈ v := mem_of_unquoteBody (by decide) hv (by simpa using hinside.1)
      have hbyte : (34 : UInt8) ∈ encode v :=
        mem_flatMap.mpr ⟨_, hmem, mem_singleton.mpr rfl⟩
      rw [heq] at hbyte
      exact hno (point_mem_of_byte_mem (all_isPoint_of_begins hinside.2 hpoints) (by decide) hbyte)
  · intro hslash
    have hplain := closingQuote_plain (b := s.drop (text.length + 1)) hslash hno
    rw [← hu, hclosing] at hplain
    have hbody : text = body :=
      append_cancel_right ((Option.some.inj hplain ▸ hu.symm).trans hs)
    have htext := eq_of_unquoteBody hpoints (by simpa [← hbody] using hslash) hv
    rw [hbody, append_cancel_right htext]

end LokiVlProxy.Logql.Syntax
