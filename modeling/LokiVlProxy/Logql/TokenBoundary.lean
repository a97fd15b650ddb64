/-
  Logql/TokenBoundary.lean --- a token does not depend on the text behind it.

  The scanner looks one rune past a token at most.
-/
import LokiVlProxy.Logql.Literals

namespace LokiVlProxy.Logql.Syntax

open Foundation List

variable (u : UnicodeTables)

/-! ## Runes that end a token -/

/-- The runes that belong to no token of several runes. -/
def separators : List Rune := [.point ' ', .point '(', .point ')', .point ']']

/-- A text that can stand behind a token in the place of another one. -/
def Replaces (rest t : Runes) : Prop := t.head? = rest.head? ∨ ∀ r ∈ t.head?, r ∈ separators

variable {t w s : Runes} {p : Rune → Bool}

theorem Replaces.head {rest : Runes} (h : Replaces rest t) (hrest : ∀ r ∈ rest.head?, p r = false)
    (hp : ∀ r ∈ separators, p r = false) : ∀ r ∈ t.head?, p r = false := by
  intro r hr
  obtain h | h := h
  · exact hrest r (h ▸ hr)
  · exact hp r (h r hr)

theorem takeWhile_append_of_head (hw : ∀ r ∈ w, p r = true) (ht : ∀ r ∈ t.head?, p r = false) :
    (w ++ t).takeWhile p = w := by
  rw [takeWhile_append_of_pos hw]
  cases t with
  | nil => simp
  | cons r t => simp [ht r rfl]

theorem dropWhile_append_of_head (hw : ∀ r ∈ w, p r = true) (ht : ∀ r ∈ t.head?, p r = false) :
    (w ++ t).dropWhile p = t := by
  rw [dropWhile_append_of_pos hw]
  cases t with
  | nil => rfl
  | cons r t => simp [ht r rfl]

theorem head_dropWhile (s : Runes) : ∀ r ∈ (s.dropWhile p).head?, p r = false := by
  intro r hr
  have h := head?_dropWhile_not p s
  rw [hr] at h
  simpa using h

/-! ## Names and numbers -/

/-- An identifier ends where its letters do. -/
theorem scanIdent_append (hw : ∀ r ∈ w, identRune u r = true)
    (ht : ∀ r ∈ t.head?, identRune u r = false) :
    scanIdent u (w ++ t) = (⟨(keywords.lookup w).getD .tokIdent, w⟩, t) := by
  simp only [scanIdent, takeWhile_append_of_head hw ht, drop_left]

def digitRune (r : Rune) : Bool := r.is fun c => u.isDigit c || c = '.'

def letterRune (r : Rune) : Bool := r.is u.isLetter

/-- The runes of numbers and durations. -/
def numeralRune (r : Rune) : Bool := digitRune u r || letterRune u r

/-- One step of the loop over the segments of a duration. -/
theorem scanSegments_succ (fuel : Nat) (b : Bool) (digits unit : Runes)
    (hdigits : ∀ r ∈ digits, digitRune u r = true) (hunit : ∀ r ∈ unit, letterRune u r = true)
    (hnext : ∀ r ∈ (unit ++ s).head?, digitRune u r = false)
    (hs : ∀ r ∈ s.head?, letterRune u r = false) :
    scanSegments u (fuel + 1) b (digits ++ (unit ++ s)) =
      if digits.isEmpty ∨ unit.isEmpty then (b, unit ++ s) else scanSegments u fuel true s := by
  have hfirst : (digits ++ (unit ++ s)).takeWhile (Rune.is fun c => u.isDigit c || c = '.') = digits :=
    takeWhile_append_of_head hdigits hnext
  have hsecond : (unit ++ s).takeWhile (Rune.is u.isLetter) = unit := takeWhile_append_of_head hunit hs
  rw [scanSegments, hfirst, drop_left, hsecond, drop_left]
  cases digits with
  | nil => simp
  | cons => cases unit <;> simp

theorem head_append_of_head (hs : ∀ r ∈ s.head?, p r = false) (ht : ∀ r ∈ t.head?, p r = false) :
    ∀ r ∈ (s ++ t).head?, p r = false := by
  cases s with
  | nil => exact ht
  | cons r s => exact hs

/-- The first segment of a text of runes of numbers, and what is behind it. -/
theorem numeral_segment (hw : ∀ r ∈ w, numeralRune u r = true) :
    ∃ digits unit s, w = digits ++ (unit ++ s) ∧ (∀ r ∈ digits, digitRune u r = true) ∧
      (∀ r ∈ unit, letterRune u r = true) ∧ (∀ r ∈ (unit ++ s).head?, digitRune u r = false) ∧
      (∀ r ∈ s.head?, letterRune u r = false) ∧ (unit = [] → s = []) := by
  let rest := w.dropWhile (digitRune u)
  have hrest : rest.takeWhile (letterRune u) ++ rest.dropWhile (letterRune u) = rest :=
    takeWhile_append_dropWhile
  refine ⟨w.takeWhile (digitRune u), rest.takeWhile (letterRune u), rest.dropWhile (letterRune u), ?_,
    fun r hr => mem_takeWhile_imp hr, fun r hr => mem_takeWhile_imp hr, ?_,
    head_dropWhile rest, fun hunit => ?_⟩
  · rw [hrest]
    exact takeWhile_append_dropWhile.symm
  · rw [hrest]
    exact head_dropWhile w
  · -- A rune here is no digit and no letter.
    cases hnext : rest.dropWhile (letterRune u) with
    | nil => rfl
    | cons r s =>
      rw [hunit, nil_append, hnext] at hrest
      have hfirst : rest.head? = some r := hrest ▸ rfl
      have hdigit := head_dropWhile w r hfirst
      have hletter := head_dropWhile (p := letterRune u) rest r (by rw [hnext]; rfl)
      have hmem : r ∈ w := (dropWhile_sublist _).subset (hrest ▸ mem_cons_self : r ∈ rest)
      have hr := hw r hmem
      simp [numeralRune, hdigit, hletter] at hr

/-- A number ends where the runes of numbers do. -/
theorem scanSegments_append (n : Nat) (hw : ∀ r ∈ w, numeralRune u r = true)
    (hhead : ∀ r ∈ w.head?, letterRune u r = false) (hn : w.length ≤ n) (b : Bool)
    (ht : ∀ r ∈ t.head?, numeralRune u r = false) {fuel : Nat} (hfuel : w.length ≤ fuel) :
    scanSegments u fuel b (w ++ t) = ((scanSegments u n b w).1, t) := by
  have htdigit : ∀ r ∈ t.head?, digitRune u r = false := fun r hr => by
    have h := ht r hr
    simp only [numeralRune, Bool.or_eq_false_iff] at h
    exact h.1
  have htletter : ∀ r ∈ t.head?, letterRune u r = false := fun r hr => by
    have h := ht r hr
    simp only [numeralRune, Bool.or_eq_false_iff] at h
    exact h.2
  have hnil : ∀ n fuel b, scanSegments u fuel b ([] ++ t) = ((scanSegments u n b []).1, t) := by
    intro n fuel b
    have hflag : (scanSegments u n b []).1 = b := by cases n <;> rfl
    rw [hflag]
    cases fuel with
    | zero => rfl
    | succ fuel => exact scanSegments_succ u fuel b [] [] (forall_mem_nil _) (forall_mem_nil _) htdigit htletter
  induction n generalizing w b fuel with
  | zero =>
    obtain rfl := length_eq_zero_iff.mp (Nat.le_zero.mp hn)
    exact hnil 0 fuel b
  | succ n ih =>
    obtain ⟨digits, unit, s, rfl, hdigits, hunit, hnext, hs, hlast⟩ := numeral_segment u hw
    cases hd : digits with
    | nil =>
      -- The first rune is no digit and no letter, so there is none.
      subst hd
      cases hempty : unit ++ s with
      | nil => exact hnil _ fuel b
      | cons r rest =>
        have hr := hw r (by simp [hempty])
        have hdigit := hnext r (by rw [hempty]; rfl)
        have hletter := hhead r (by rw [nil_append, hempty]; rfl)
        simp [numeralRune, hdigit, hletter] at hr
    | cons first more =>
      obtain ⟨fuel, rfl⟩ : ∃ m, fuel = m + 1 :=
        ⟨fuel - 1, by simp [hd] at hfuel; omega⟩
      have hnext' : ∀ r ∈ (unit ++ (s ++ t)).head?, digitRune u r = false := by
        rw [← append_assoc]
        exact head_append_of_head hnext htdigit
      have htext : digits ++ (unit ++ s) ++ t = digits ++ (unit ++ (s ++ t)) := by simp
      rw [← hd, htext, scanSegments_succ u fuel b digits unit hdigits hunit hnext'
        (head_append_of_head hs htletter), scanSegments_succ u n b digits unit hdigits hunit hnext hs]
      cases unit with
      | nil =>
        obtain rfl := hlast rfl
        simp
      | cons letter unit =>
        have hlength : s.length ≤ n ∧ s.length ≤ fuel := by
          simp [hd] at hn hfuel
          omega
        rw [if_neg (by simp [hd]), if_neg (by simp [hd])]
        exact ih (fun r hr => hw r (by simp [hr])) hs hlength.1 true hlength.2

/-- A number or duration ends where its letters do. -/
theorem scanNumberOrDuration_append (hw : ∀ r ∈ w, numeralRune u r = true)
    (hhead : ∀ r ∈ w.head?, letterRune u r = false) (ht : ∀ r ∈ t.head?, numeralRune u r = false) :
    scanNumberOrDuration u (w ++ t) =
      (⟨if (scanSegments u w.length false w).1 then .tokDuration else .tokNumber, w⟩, t) := by
  have hfuel : w.length ≤ (w ++ t).length := by simp
  have hlength : (w ++ t).length - t.length = w.length := by simp
  simp only [scanNumberOrDuration, scanSegments_append u w.length hw hhead le_rfl false ht hfuel, hlength,
    take_left]

/-! ## Tokens -/

/-- The text of a token: no quote and none of the four usual white spaces, or a closed literal. -/
inductive TokenText : Runes → Prop where
  | word {w : Runes} (hne : w ≠ [])
      (h : ∀ c ∈ [' ', '\t', '\n', '\r', '"', '\x60'], .point c ∉ w) : TokenText w
  | double {body : Runes} (h : quotedBody (.point '"') body = true) :
      TokenText (.point '"' :: (body ++ [.point '"']))
  | raw {body : Runes} (h : .point '\x60' ∉ body) :
      TokenText (.point '\x60' :: (body ++ [.point '\x60']))

theorem TokenText.ne_nil (h : TokenText w) : w ≠ [] := by
  cases h with
  | word hne => exact hne
  | double | raw => nofun

theorem Replaces.no_operator {rest : Runes} (h : Replaces rest t) {c : Char}
    (hrest : ∀ s, rest = .point c :: s → False) (hc : Rune.point c ∉ separators) :
    ∀ s, t = .point c :: s → False := by
  rintro s rfl
  obtain h | h := h
  · obtain ⟨s', hs'⟩ := head?_eq_some_iff.mp h.symm
    exact hrest s' hs'
  · exact hc (h _ rfl)

theorem tokenText_operator (hne : w ≠ [])
    (h : ∀ r ∈ w, r ∉ [' ', '\t', '\n', '\r', '"', '\x60'].map Rune.point) : TokenText w :=
  .word hne fun _ hc hmem => h _ hmem (mem_map_of_mem hc)

/-- A literal in double quotes that is no error. -/
theorem scanQuotedString_text (herror : (scanQuotedString s).1.typ ≠ .tokError) :
    ∃ body, quotedBody (.point '"') body = true ∧ s = body ++ .point '"' :: (scanQuotedString s).2 ∧
      ∀ t, scanQuotedString (body ++ .point '"' :: t) = ((scanQuotedString s).1, t) := by
  have hclosing : ∃ rest, closingQuote s = some rest := by
    cases hrest : closingQuote s with
    | none => exact absurd (by rw [scanQuotedString, hrest]) herror
    | some rest => exact ⟨rest, rfl⟩
  obtain ⟨rest, hrest⟩ := hclosing
  obtain ⟨body, rfl, hbody⟩ := quotedBody_of_closingQuote hrest
  have htake : ∀ t : Runes, (body ++ .point '"' :: t).take ((body ++ .point '"' :: t).length - t.length) =
      body ++ [.point '"'] := by
    intro t
    have hsplit : body ++ .point '"' :: t = body ++ [.point '"'] ++ t := by simp
    rw [hsplit, length_append, Nat.add_sub_cancel, take_left]
  -- What the scanner makes of the text between the quotes does not depend on what follows.
  have hscan : ∀ t, scanQuotedString (body ++ .point '"' :: t) =
      ((scanQuotedString (body ++ [.point '"'])).1, t) := by
    intro t
    simp only [scanQuotedString, closingQuote_body hbody t, closingQuote_body hbody [], htake t,
      htake []]
    cases unquote (.point '"' :: (body ++ [.point '"'])) with
    | none => rfl
    | some value =>
      dsimp only
      split <;> rfl
  refine ⟨body, hbody, ?_, fun t => ?_⟩
  · rw [hscan rest]
  · rw [hscan t, hscan rest]

/-- A raw string ends at its closing backquote. -/
theorem scanRawString_closed {body : Runes} (h : .point '\x60' ∉ body) (t : Runes) :
    scanRawString (body ++ .point '\x60' :: t) = (⟨.tokRawString, body⟩, t) := by
  have hbody : ∀ r ∈ body, decide (r ≠ .point '\x60') = true := fun r hr =>
    decide_eq_true fun hq => h (hq ▸ hr)
  have htake : (body ++ .point '\x60' :: t).takeWhile (· ≠ .point '\x60') = body :=
    takeWhile_append_of_head hbody (by rintro r ⟨⟩; rfl)
  simp only [scanRawString, htake, drop_left, tail_cons]

variable (braceDepth : Nat)

/-- Letters and digits choose between an identifier and a number. -/
theorem scanToken_start {r : Rune}
    (h : (r.is fun c => u.isLetter c || c = '_') = true ∨ r.is u.isDigit = true) (s : Runes) :
    scanToken u braceDepth (r :: s) =
      if (r.is fun c => u.isLetter c || c = '_') = true then
        ((scanIdent u (r :: s)).1, (scanIdent u (r :: s)).2, braceDepth)
      else ((scanNumberOrDuration u (r :: s)).1, (scanNumberOrDuration u (r :: s)).2, braceDepth) := by
  unfold scanToken
  split
  case h_1 => contradiction
  case h_33 hcons =>
    obtain ⟨rfl, rfl⟩ := cons.inj hcons
    exact if_ctx_congr Iff.rfl (fun _ => rfl) fun hletter => if_pos (h.resolve_left hletter)
  all_goals
    rename_i hcons
    obtain ⟨rfl, -⟩ := cons.inj hcons
    obtain h | h := h <;> cases h

/-- A text that ends in an opening bracket only when it is one. -/
def BracketAlone (w : Runes) : Prop :=
  ∀ r ∈ w.getLast?, r = .point '(' ∨ r = .point '[' → w = [r]

theorem bracketAlone_one (r : Rune) : BracketAlone [r] := by
  rintro x ⟨⟩ -
  rfl

theorem bracketAlone_quoted {q : Rune} (hopen : q ≠ .point '(') (hbracket : q ≠ .point '[')
    (body : Runes) : BracketAlone (q :: (body ++ [q])) := by
  intro r hr h
  rw [← cons_append, getLast?_concat] at hr
  obtain rfl := Option.some.inj hr
  exact (h.elim hopen hbracket).elim

/-- The text of a token, which is read wherever it stands. -/
def ReadsAlike (s : Runes) (res : Token × Runes × Nat) : Prop :=
  ∃ w, TokenText w ∧ BracketAlone w ∧ s = w ++ res.2.1 ∧
    ∀ t, Replaces res.2.1 t ∨ w = [.point '('] ∨ w = [.point '['] →
      scanToken u braceDepth (w ++ t) = (res.1, t, res.2.2)

/-- An operator of one rune that can start another one. -/
theorem readsAlike_operator {token : Token} {c : Char} (hc : c ∈ ['|', '<', '>', '='])
    (hscan : ∀ t, Replaces s t → scanToken u braceDepth (.point c :: t) = (token, t, braceDepth)) :
    ReadsAlike u braceDepth (.point c :: s) (token, s, braceDepth) := by
  refine ⟨[.point c], tokenText_operator (cons_ne_nil _ _) ?_, bracketAlone_one _, rfl, ?_⟩
  · simp only [mem_cons, not_mem_nil, or_false] at hc
    rcases hc with rfl | rfl | rfl | rfl <;> decide
  · rintro t (ht | h | h)
    · exact hscan t ht
    all_goals
      cases h
      exact absurd hc (by decide)

/-- A word that goes as far as its kind of runes. -/
theorem scanToken_word {braceDepth : Nat} {r : Rune} {scan : Runes → Token × Runes}
    (hr : p r = true)
    (hp : ∀ c ∈ [' ', '\t', '\n', '\r', '"', '\x60', '(', ')', '[', ']'], p (.point c) = false)
    (hscan : ∀ w, (∀ x ∈ r :: w, p x = true) → ∃ token, ∀ t, (∀ x ∈ t.head?, p x = false) →
      scan (r :: w ++ t) = (token, t))
    (htoken : ∀ s, scanToken u braceDepth (r :: s) =
      ((scan (r :: s)).1, (scan (r :: s)).2, braceDepth)) :
    ReadsAlike u braceDepth (r :: s) ((scan (r :: s)).1, (scan (r :: s)).2, braceDepth) := by
  have hsplit : r :: s.takeWhile p ++ s.dropWhile p = r :: s := by
    rw [cons_append, takeWhile_append_dropWhile]
  have hall : ∀ x ∈ r :: s.takeWhile p, p x = true :=
    forall_mem_cons.mpr ⟨hr, fun x hx => mem_takeWhile_imp hx⟩
  obtain ⟨token, htail⟩ := hscan _ hall
  have hs := htail _ (head_dropWhile s)
  have hout : ∀ c ∈ [' ', '\t', '\n', '\r', '"', '\x60', '(', ')', '[', ']'],
      .point c ∉ r :: s.takeWhile p := by
    intro c hc hmem
    exact absurd ((hall _ hmem).symm.trans (hp c hc)) (by decide)
  rw [hsplit] at hs
  rw [hs]
  refine ⟨r :: s.takeWhile p, .word (cons_ne_nil _ _) fun c hc => hout c ?_, ?_, hsplit.symm, ?_⟩
  · exact mem_append_left ['(', ')', '[', ']'] hc
  · rintro x hx (rfl | rfl)
    · exact absurd (mem_of_getLast? hx) (hout '(' (by decide))
    · exact absurd (mem_of_getLast? hx) (hout '[' (by decide))
  · rintro t (ht | h | h)
    · have hsep : ∀ x ∈ separators, p x = false := by
        simp only [separators, mem_cons, not_mem_nil, or_false, forall_eq_or_imp, forall_eq]
        exact ⟨hp ' ' (by decide), hp '(' (by decide), hp ')' (by decide), hp ']' (by decide)⟩
      rw [cons_append, htoken, ← cons_append, htail t (ht.head (head_dropWhile s) hsep)]
    · exact absurd (h ▸ mem_cons_self) (hout '(' (by decide))
    · exact absurd (h ▸ mem_cons_self) (hout '[' (by decide))

/-- A token that is no error: its text, and that its place does not matter. -/
theorem scanToken_text (r : Rune) (s : Runes)
    (herror : (scanToken u braceDepth (r :: s)).1.typ ≠ .tokError) :
    (r = .point '\x60' ∧ .point '\x60' ∉ s) ∨
      ReadsAlike u braceDepth (r :: s) (scanToken u braceDepth (r :: s)) := by
  generalize hres : scanToken u braceDepth (r :: s) = res at *
  unfold scanToken at hres
  split at hres
  case h_1 => contradiction
  case h_13 | h_25 | h_27 | h_30 =>
    rename_i hsign
    obtain ⟨rfl, rfl⟩ := cons.inj hsign
    subst hres
    refine .inr (readsAlike_operator u braceDepth (by decide) fun t ht => ?_)
    rw [scanToken]
    · rfl
    all_goals exact ht.no_operator (by assumption) (by decide)
  case h_17 =>
    subst hres
    exact absurd rfl herror
  case h_31 hquote =>
    obtain ⟨rfl, rfl⟩ := cons.inj hquote
    subst hres
    obtain ⟨body, hbody, hs, hscan⟩ := scanQuotedString_text herror
    refine .inr ⟨.point '"' :: (body ++ [.point '"']), .double hbody,
      bracketAlone_quoted (by decide) (by decide) body, ?_, fun t _ => ?_⟩
    · simpa using hs
    · rw [cons_append, append_assoc, singleton_append, scanToken, hscan t]
  case h_32 hquote =>
    obtain ⟨rfl, rfl⟩ := cons.inj hquote
    subst hres
    by_cases hmem : Rune.point '\x60' ∈ s
    · obtain ⟨body, rest, rfl, hbody⟩ := eq_append_cons_of_mem hmem
      refine .inr ⟨.point '\x60' :: (body ++ [.point '\x60']), .raw hbody,
        bracketAlone_quoted (by decide) (by decide) body, ?_, fun t _ => ?_⟩
      · rw [scanRawString_closed hbody]
        simp
      · rw [cons_append, append_assoc, singleton_append, scanToken,
          scanRawString_closed hbody, scanRawString_closed hbody]
    · exact .inl ⟨rfl, hmem⟩
  case h_33 hcons =>
    obtain ⟨rfl, rfl⟩ := cons.inj hcons
    dsimp only at hres
    split at hres
    next hletter =>
      subst hres
      refine .inr (scanToken_word u (p := identRune u) ?_ ?_
        (fun w hw => ⟨_, fun t => scanIdent_append u hw⟩)
        fun s => (scanToken_start u braceDepth (.inl hletter) s).trans (if_pos hletter))
      · cases r with
        | point c =>
          have hc : (u.isLetter c || decide (c = '_')) = true := hletter
          simp only [identRune, Rune.is, Bool.or_eq_true, decide_eq_true_eq] at hc ⊢
          tauto
        | stray b => cases hletter
      · simp only [mem_cons, not_mem_nil, or_false, forall_eq_or_imp, forall_eq]
        exact ⟨rfl, rfl, rfl, rfl, rfl, rfl, rfl, rfl, rfl, rfl⟩
    next hletter =>
      split at hres
      next hdigit =>
        subst hres
        obtain ⟨hr, hnot⟩ : numeralRune u r = true ∧ letterRune u r = false := by
          cases r with
          | point c =>
            have hc : u.isDigit c = true := hdigit
            have hc' : ¬ (u.isLetter c || decide (c = '_')) = true := hletter
            simp only [Bool.or_eq_true, not_or] at hc'
            simp [numeralRune, digitRune, letterRune, Rune.is, hc, hc'.1]
          | stray b => cases hdigit
        refine .inr (scanToken_word u hr ?_
          (fun w hw => ⟨_, fun t => scanNumberOrDuration_append u hw ?_⟩)
          fun s => (scanToken_start u braceDepth (.inr hdigit) s).trans (if_neg hletter))
        · simp only [mem_cons, not_mem_nil, or_false, forall_eq_or_imp, forall_eq]
          exact ⟨rfl, rfl, rfl, rfl, rfl, rfl, rfl, rfl, rfl, rfl⟩
        · rintro x ⟨⟩
          exact hnot
      next =>
        subst hres
        exact absurd rfl herror
  -- The other operators are read whatever follows.
  all_goals
    rename_i hcons
    simp only [cons.injEq] at hcons
    obtain ⟨rfl, rfl⟩ := hcons
    subst hres
  case h_10 | h_11 | h_12 | h_14 | h_15 | h_16 | h_24 | h_26 | h_28 | h_29 =>
    refine .inr ⟨[.point _, .point _], ?_, ?_, rfl, fun t _ => rfl⟩
    · exact tokenText_operator (cons_ne_nil _ _) (by decide)
    · rintro r ⟨⟩ (h | h) <;> cases h
  all_goals
    refine .inr ⟨[.point _], ?_, bracketAlone_one _, rfl, fun t _ => rfl⟩
    exact tokenText_operator (cons_ne_nil _ _) (by decide)

end LokiVlProxy.Logql.Syntax
