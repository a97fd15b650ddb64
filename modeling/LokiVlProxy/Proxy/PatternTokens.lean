/-
  Proxy/PatternTokens.lean --- lines as tokens, and tokens as pattern texts.

  Source: internal/proxy/postprocess.go: patternLineTokenizer, Tokenize, Join,
  isPatternPlaceholder, patternPlaceholderKind, patternPlaceholderMatchesToken,
  patternPlaceholderForToken, commonPatternPlaceholder, mergePatternTemplate,
  trimPatternPunct, isUUIDLike, isTimestampLike, isPathLike, isNumericLike, isHexLike,
  isIPLike, deduplicatePlaceholders.

  A line is cut into tokens and the places of its blanks; `Join` writes them out again, a
  placeholder as `<_>`.
-/
import LokiVlProxy.Foundation.Wildcard

namespace LokiVlProxy.Proxy

open Foundation List

/-- The classes of the `unicode` package that the tokenizer asks for. -/
structure CharClasses where
  isLetter : Char → Bool
  isNumber : Char → Bool
  isPunct : Char → Bool
  isDigit : Char → Bool

/-! ## The tokenizer -/

def patternMinTokens : Nat := 4
def patternMaxTokens : Nat := 80
def patternMaxLineLength : Nat := 3000

/-- The tokens so far, the places of the blanks so far (the index of the token before each,
-1 at the front of the line), and the text since the last cut. -/
structure TokenizerState where
  tokens : List Bytes
  spacesAfter : List Int
  current : Bytes

namespace TokenizerState

variable (classes : CharClasses)

/-- `excludeDelimiters`: these do not cut. -/
def excluded (c : Char) : Bool := ['_', '-', '.', ':', '/'].contains c

variable (st : TokenizerState)

/-- The text since the last cut as a token, if there is any. -/
def closed : List Bytes :=
  if st.current = [] then st.tokens else st.tokens ++ [st.current]

/-- A rune that cuts: a blank is noted, of anything else the first byte is a token. -/
def cut (r : Rune) : TokenizerState :=
  if r = .point ' ' then ⟨st.closed, st.spacesAfter ++ [(st.closed.length : Int) - 1], []⟩
  else ⟨st.closed ++ [r.bytes.take 1], st.spacesAfter, r.bytes.drop 1⟩

/-- A rune that does not cut. -/
def extend (r : Rune) : TokenizerState :=
  { st with current := st.current ++ r.bytes }

/-- The body of the loop.  With 127 tokens the loop is left, and the rest of the line is one
token. -/
def step (r : Rune) : TokenizerState :=
  if 127 ≤ st.tokens.length then st.extend r
  else if r.is classes.isLetter || r.is classes.isNumber || r.is excluded then st.extend r
  else if r = .point ' ' ∨ r = .point '=' ∨ r.is classes.isPunct = true then st.cut r
  else st.extend r

end TokenizerState

def tokenize (classes : CharClasses) (line : Bytes) : Option (List Bytes × List Int) :=
  if line = [] ∨ patternMaxLineLength < line.length then none
  else
    let st := (decode line).foldl (TokenizerState.step classes) ⟨[], [], []⟩
    if st.closed.length < patternMinTokens ∨ patternMaxTokens < st.closed.length then none
    else some (st.closed, st.spacesAfter)

/-! ## Writing tokens out -/

/-- The loop of `Join` from token `i` on: each token as `out` writes it, and the blanks noted
behind it. -/
def layout (out : Bytes → Bytes) (i : Int) : List Bytes → List Int → Bytes
  | [], _ => []
  | token :: tokens, spaces =>
    out token ++ (List.replicate (spaces.takeWhile (· = i)).length 32 ++
      layout out (i + 1) tokens (spaces.dropWhile (· = i)))

/-- The blanks are noted in order, each behind one of the tokens from `i` up to `n`. -/
structure Placed (i n : Int) (spaces : List Int) : Prop where
  sorted : spaces.Pairwise (· ≤ ·)
  bounds : ∀ s ∈ spaces, i ≤ s ∧ s < n

variable {spaces : List Int} {tokens : List Bytes}

theorem Placed.dropWhile {i n : Int} (h : Placed i n spaces) :
    Placed (i + 1) n (spaces.dropWhile (· = i)) := by
  have hsub := dropWhile_sublist (fun s : Int => decide (s = i)) (l := spaces)
  refine ⟨h.sorted.sublist hsub, fun s hs => ⟨?_, (h.bounds s (hsub.subset hs)).2⟩⟩
  cases hdrop : spaces.dropWhile (· = i) with
  | nil => rw [hdrop] at hs; exact absurd hs not_mem_nil
  | cons first rest =>
    -- the first one left is not `i`, and those behind it are not smaller
    have hne : first ≠ i := by
      have hhead := head?_dropWhile_not (fun s : Int => decide (s = i)) spaces
      rw [hdrop] at hhead
      simpa using hhead
    have hfirst := (h.bounds first (hsub.subset (hdrop ▸ mem_cons_self))).1
    have hsorted := h.sorted.sublist hsub
    rw [hdrop] at hs hsorted
    rcases mem_cons.mp hs with rfl | hs
    · omega
    · have := (pairwise_cons.mp hsorted).1 s hs
      omega

theorem layout_concat_token (out : Bytes → Bytes) (token : Bytes) {i : Int}
    (h : Placed i (i + tokens.length) spaces) :
    layout out i (tokens ++ [token]) spaces = layout out i tokens spaces ++ out token := by
  induction tokens generalizing i spaces with
  | nil =>
    have hnone : spaces = [] := by
      cases spaces with
      | nil => rfl
      | cons s spaces =>
        have hs := h.bounds s mem_cons_self
        rw [length_nil, Nat.cast_zero] at hs
        omega
    subst hnone
    simp [layout]
  | cons first tokens ih =>
    rw [cons_append, layout, layout, ih]
    · simp only [append_assoc]
    · have hplaced := h.dropWhile
      rwa [length_cons, Nat.cast_succ, ← Int.add_assoc, Int.add_right_comm] at hplaced

theorem while_concat_of_neg {p : Int → Bool} {x : Int} (hx : p x = false) (l : List Int) :
    (l ++ [x]).takeWhile p = l.takeWhile p ∧ (l ++ [x]).dropWhile p = l.dropWhile p ++ [x] := by
  induction l with
  | nil => simp [hx]
  | cons a l ih => cases ha : p a <;> simp [ha, ih]

/-- A blank behind the last token is written at the end. -/
theorem layout_concat_space (out : Bytes → Bytes) {i : Int}
    (h : Placed i (i + tokens.length) spaces) (hne : tokens ≠ []) :
    layout out i tokens (spaces ++ [i + tokens.length - 1]) = layout out i tokens spaces ++ [32] := by
  induction tokens generalizing i spaces with
  | nil => exact absurd rfl hne
  | cons token tokens ih =>
    cases tokens with
    | nil =>
      have hall : ∀ s ∈ spaces ++ [i + ([token] : List Bytes).length - 1], decide (s = i) = true := by
        intro s hs
        rw [mem_append, mem_singleton, length_singleton] at hs
        rcases hs with hs | hs
        · have := h.bounds s hs
          rw [length_singleton] at this
          exact decide_eq_true (by omega)
        · exact decide_eq_true (by omega)
      have hold : ∀ s ∈ spaces, decide (s = i) = true := fun s hs =>
        hall s (mem_append_left _ hs)
      have hnew : layout out i [token] (spaces ++ [i + ([token] : List Bytes).length - 1]) =
          out token ++ List.replicate (spaces.length + 1) 32 := by
        rw [layout, takeWhile_eq_self_iff.mpr hall, layout, length_append,
          length_singleton, append_nil]
      have hbefore : layout out i [token] spaces = out token ++ List.replicate spaces.length 32 := by
        rw [layout, takeWhile_eq_self_iff.mpr hold, layout, append_nil]
      rw [hnew, hbefore, replicate_succ', append_assoc]
    | cons next tokens =>
      have hlast : decide (i + ((token :: next :: tokens).length : Int) - 1 = i) = false := by
        rw [length_cons, length_cons]
        exact decide_eq_false (by push_cast; omega)
      have hplaced : Placed (i + 1) (i + 1 + (next :: tokens).length) (spaces.dropWhile (· = i)) := by
        have hplaced := h.dropWhile
        rwa [length_cons, Nat.cast_succ, ← Int.add_assoc, Int.add_right_comm] at hplaced
      have hrest := ih hplaced (cons_ne_nil _ _)
      have hindex : i + ((token :: next :: tokens).length : Int) - 1 =
          i + 1 + ((next :: tokens).length : Int) - 1 := by
        rw [length_cons]
        push_cast
        omega
      obtain ⟨htake, hdrop⟩ := while_concat_of_neg (p := (· = i)) hlast spaces
      rw [layout, htake, hdrop, hindex, hrest]
      conv_rhs => rw [layout]
      simp only [append_assoc]

/-! ## A line is what its tokens and blanks write -/

namespace TokenizerState

/-- What was read so far is what the tokens and blanks write, with the text since the last
cut behind it; and it does not begin with a blank. -/
structure Wrote (read : Bytes) (st : TokenizerState) : Prop where
  placed : Placed 0 st.tokens.length st.spacesAfter
  text : read = layout id 0 st.tokens st.spacesAfter ++ st.current
  started : st.closed ≠ []

variable {read : Bytes} {st : TokenizerState}

theorem Wrote.closed (h : Wrote read st) :
    Placed 0 st.closed.length st.spacesAfter ∧ read = layout id 0 st.closed st.spacesAfter := by
  rw [TokenizerState.closed]
  split_ifs with hcurrent
  · have htext := h.text
    rw [hcurrent, append_nil] at htext
    exact ⟨h.placed, htext⟩
  · refine ⟨⟨h.placed.sorted, fun s hs => ?_⟩, ?_⟩
    · have hbounds := h.placed.bounds s hs
      rw [length_append, length_singleton]
      push_cast
      omega
    · rw [layout_concat_token id st.current (by simpa using h.placed), h.text]
      rfl

/-- Extending the current token writes the rune. -/
theorem Wrote.extend (h : Wrote read st) (r : Rune) : Wrote (read ++ r.bytes) (st.extend r) := by
  refine ⟨h.placed, ?_, ?_⟩
  · rw [h.text, append_assoc]
    rfl
  · have hstarted := h.started
    rw [TokenizerState.closed] at hstarted ⊢
    split_ifs with hcurrent
    · have hnil : st.current = [] := (append_eq_nil_iff.mp hcurrent).1
      rw [if_pos hnil] at hstarted
      exact hstarted
    · exact append_ne_nil_of_right_ne_nil _ (cons_ne_nil _ _)

/-- Closing the current token writes the rune. -/
theorem Wrote.cut (h : Wrote read st) (r : Rune) : Wrote (read ++ r.bytes) (st.cut r) := by
  obtain ⟨hplaced, hread⟩ := h.closed
  have hpos : 0 < st.closed.length := length_pos_iff.mpr h.started
  rw [TokenizerState.cut]
  split_ifs with hblank
  · refine ⟨⟨?_, ?_⟩, ?_, ?_⟩
    · refine pairwise_append.mpr ⟨hplaced.sorted, pairwise_singleton _ _, ?_⟩
      intro s hs t ht
      have hbounds := hplaced.bounds s hs
      rw [mem_singleton.mp ht]
      omega
    · intro s hs
      rcases mem_append.mp hs with hs | hs
      · exact hplaced.bounds s hs
      · rw [mem_singleton.mp hs]
        exact ⟨by omega, Int.sub_lt_self _ Int.one_pos⟩
    · have hspace := layout_concat_space id (i := 0) (by simpa using hplaced) h.started
      rw [Int.zero_add] at hspace
      rw [append_nil, hspace, ← hread, hblank]
      rfl
    · rw [TokenizerState.closed, if_pos rfl]
      exact h.started
  · refine ⟨⟨hplaced.sorted, fun s hs => ?_⟩, ?_, ?_⟩
    · have hbounds := hplaced.bounds s hs
      rw [length_append, length_singleton]
      push_cast
      omega
    · rw [layout_concat_token id _ (by simpa using hplaced), ← hread, id, append_assoc,
        take_append_drop]
    · rw [TokenizerState.closed]
      split_ifs <;> exact append_ne_nil_of_right_ne_nil _ (cons_ne_nil _ _)

theorem step_eq (classes : CharClasses) (st : TokenizerState) (r : Rune) :
    st.step classes r = st.extend r ∨ st.step classes r = st.cut r := by
  rw [step]
  split_ifs <;> simp

/-- The tokens and their spaces write what has been read. -/
theorem Wrote.foldl {classes : CharClasses} (h : Wrote read st) (rs : Runes) :
    Wrote (read ++ encode rs) (rs.foldl (TokenizerState.step classes) st) := by
  induction rs generalizing read st with
  | nil => simpa [encode] using h
  | cons r rs ih =>
    rw [encode_cons, ← append_assoc, foldl_cons]
    rcases step_eq classes st r with hstep | hstep
    · rw [hstep]
      exact ih (h.extend r)
    · rw [hstep]
      exact ih (h.cut r)

theorem wrote_first (classes : CharClasses) {r : Rune} (hr : r ≠ .point ' ') :
    Wrote r.bytes (step classes ⟨[], [], []⟩ r) := by
  have hplaced : ∀ n : Int, Placed 0 n [] := fun n =>
    ⟨List.Pairwise.nil, fun s hs => absurd hs not_mem_nil⟩
  rcases step_eq classes ⟨[], [], []⟩ r with hstep | hstep
  · rw [hstep]
    refine ⟨hplaced _, rfl, ?_⟩
    simp [TokenizerState.closed, TokenizerState.extend, r.bytes_ne_nil]
  · rw [hstep, TokenizerState.cut, if_neg hr]
    refine ⟨hplaced _, ?_, ?_⟩
    · have hbytes := take_append_drop 1 r.bytes
      simpa [TokenizerState.closed, layout] using hbytes.symm
    · rw [TokenizerState.closed]
      split_ifs <;> exact cons_ne_nil _ _

end TokenizerState

/-- The tokens of a line, laid out with their spaces, are the line. -/
theorem layout_tokenize {classes : CharClasses} {line : Bytes} {tokens : List Bytes}
    {spaces : List Int} (hfront : line.head? ≠ some 32)
    (h : tokenize classes line = some (tokens, spaces)) : layout id 0 tokens spaces = line := by
  rw [tokenize] at h
  dsimp only at h
  split_ifs at h with hlength _
  obtain ⟨rfl, rfl⟩ := Prod.mk.inj (Option.some.inj h)
  have hline := encode_decode line
  cases hdecode : decode line with
  | nil =>
    rw [hdecode] at hline
    exact absurd (Or.inl hline.symm) hlength
  | cons r rs =>
    rw [hdecode, encode_cons] at hline
    have hr : r ≠ .point ' ' := by
      rintro rfl
      exact hfront (by rw [← hline]; rfl)
    have hwrote : TokenizerState.Wrote (r.bytes ++ encode rs)
        ((r :: rs).foldl (TokenizerState.step classes) ⟨[], [], []⟩) :=
      (TokenizerState.wrote_first classes hr).foldl rs
    rw [hline] at hwrote
    exact hwrote.closed.2.symm

/-! ## Placeholders -/

def patternVarPlaceholder : Bytes := hole
def patternNumPlaceholder : Bytes := bytes "<num>"
def patternUUIDPlaceholder : Bytes := bytes "<uuid>"
def patternIPPlaceholder : Bytes := bytes "<ip>"
def patternPathPlaceholder : Bytes := bytes "<path>"
def patternHexPlaceholder : Bytes := bytes "<hex>"
def patternTSPlaceholder : Bytes := bytes "<ts>"

/-- The placeholders of `isPatternPlaceholder`. -/
def patternPlaceholders : List Bytes :=
  [patternVarPlaceholder, patternNumPlaceholder, patternUUIDPlaceholder, patternIPPlaceholder,
    patternPathPlaceholder, patternHexPlaceholder, patternTSPlaceholder]

variable (token : Bytes)

def isPatternPlaceholder : Bool := patternPlaceholders.contains token

def isDigitByte (b : UInt8) : Bool := 48 ≤ b && b ≤ 57

def isHexByte (b : UInt8) : Bool :=
  isDigitByte b || (97 ≤ b && b ≤ 102) || (65 ≤ b && b ≤ 70)

def trimPatternPunct (s : Bytes) : Bytes :=
  trimSpaceBytes (trimBytes (bytes "\"\x27()[]\x7b\x7d<>,;") s)

/-- The loop of `isIPLike`, with so many dots and so many digits since the last. -/
def ipOctets : Nat → Nat → Bytes → Bool
  | dots, part, [] => dots = 3 ∧ 0 < part
  | dots, part, c :: s =>
    if isDigitByte c then if 3 < part + 1 then false else ipOctets dots (part + 1) s
    else if c = byte '.' then if part = 0 then false else ipOctets (dots + 1) 0 s
    else false

def isIPLike (s : Bytes) : Bool := 7 ≤ s.length && s.length ≤ 15 && ipOctets 0 0 s

def isUUIDLike : Bool :=
  token.length = 36 && token.zipIdx.all fun p =>
    if [8, 13, 18, 23].contains p.2 then p.1 = byte '-' else isHexByte p.1

def isTimestampLike : Bool := token.contains (byte 'T') && token.contains (byte ':')

def isPathLike : Bool :=
  token.head? = some (byte '/') && 2 ≤ token.count (byte '/')

def isHexLike (s : Bytes) : Bool :=
  let s := if bytes "0x" <+: s then s.drop 2 else s
  s.all fun b => isHexByte b || b = byte '-'

section Kinds

variable (classes : CharClasses)

def isNumericLike (token : Bytes) : Bool :=
  match token with
  | [] => false
  | c :: _ =>
    isDigitByte c ||
      (3 < token.length && token.length / 2 < (decode token).countP (Rune.is classes.isDigit))

def patternPlaceholderForToken (token : Bytes) : Bytes :=
  let token := trimPatternPunct token
  if token = [] then []
  else if isIPLike token then patternIPPlaceholder
  else if isUUIDLike token then patternUUIDPlaceholder
  else if isTimestampLike token then patternTSPlaceholder
  else if isPathLike token then patternPathPlaceholder
  else if isNumericLike classes token then patternNumPlaceholder
  else if 8 ≤ token.length && isHexLike token then patternHexPlaceholder
  else []

/-- `patternPlaceholderKind`: empty when the token has none. -/
def patternPlaceholderKind (token : Bytes) : Bytes :=
  if isPatternPlaceholder token then token else patternPlaceholderForToken classes token

def patternPlaceholderMatchesToken (placeholder token : Bytes) : Bool :=
  if placeholder = [] then false
  else if placeholder = patternVarPlaceholder then true
  else placeholder = patternPlaceholderForToken classes token

variable (left right : Bytes)

def samePatternPlaceholderKind : Bool :=
  patternPlaceholderKind classes left ≠ [] &&
    patternPlaceholderKind classes left = patternPlaceholderKind classes right

def commonPatternPlaceholder : Bytes :=
  if patternPlaceholderKind classes left ≠ [] ∧
      patternPlaceholderKind classes left = patternPlaceholderKind classes right then
    patternPlaceholderKind classes left
  else patternVarPlaceholder

def mergePatternTemplate (templateTokens tokens : List Bytes) : List Bytes :=
  if templateTokens.length ≠ tokens.length then templateTokens
  else templateTokens.zipWith
    (fun t token => if t = token then t else commonPatternPlaceholder classes t token) tokens

theorem patternPlaceholderForToken_eq (token : Bytes) :
    patternPlaceholderForToken classes token = [] ∨
      isPatternPlaceholder (patternPlaceholderForToken classes token) = true := by
  have hmem : ∀ p ∈ patternPlaceholders, isPatternPlaceholder p = true := fun p hp =>
    contains_iff_mem.mpr hp
  rw [patternPlaceholderForToken]
  split_ifs
  any_goals exact Or.inl rfl
  all_goals exact Or.inr (hmem _ (by simp [patternPlaceholders]))

theorem isPatternPlaceholder_common :
    isPatternPlaceholder (commonPatternPlaceholder classes left right) = true := by
  rw [commonPatternPlaceholder]
  split_ifs with h
  · have hkind := h.1
    rw [patternPlaceholderKind] at hkind ⊢
    split_ifs at hkind ⊢ with hplaceholder
    · exact hplaceholder
    · exact (patternPlaceholderForToken_eq classes left).resolve_left hkind
  · exact contains_iff_mem.mpr mem_cons_self

/-! ## Templates -/

/-- A template covers tokens: each of them stands in it, or a placeholder does. -/
def Covers (template tokens : List Bytes) : Prop :=
  List.Forall₂ (fun t token => t = token ∨ isPatternPlaceholder t = true) template tokens

theorem Covers.refl (tokens : List Bytes) : Covers tokens tokens :=
  forall₂_same.mpr fun _ _ => Or.inl rfl

variable {template : List Bytes}

theorem covers_merge_self {tokens : List Bytes} (hlength : template.length = tokens.length) :
    Covers (mergePatternTemplate classes template tokens) tokens := by
  rw [mergePatternTemplate, if_neg (not_not.mpr hlength)]
  induction template generalizing tokens with
  | nil =>
    rw [length_eq_zero_iff.mp hlength.symm]
    exact List.Forall₂.nil
  | cons t template ih =>
    obtain ⟨token, tokens, rfl⟩ := exists_cons_of_length_eq_add_one hlength.symm
    rw [zipWith_cons_cons]
    refine List.Forall₂.cons ?_ (ih (Nat.succ.inj hlength))
    split_ifs with heq
    · exact Or.inl heq
    · exact Or.inr (isPatternPlaceholder_common classes t token)

/-- Merging keeps a template over the lines that it covered. -/
theorem Covers.merge {old : List Bytes} (h : Covers template old) (tokens : List Bytes) :
    Covers (mergePatternTemplate classes template tokens) old := by
  rw [mergePatternTemplate]
  split_ifs with hlength
  · exact h
  · rw [not_not] at hlength
    induction h generalizing tokens with
    | nil => exact List.Forall₂.nil
    | @cons t o template old hhead htail ih =>
      obtain ⟨token, tokens, rfl⟩ := exists_cons_of_length_eq_add_one hlength.symm
      rw [zipWith_cons_cons]
      refine List.Forall₂.cons ?_ (ih tokens (Nat.succ.inj hlength))
      split_ifs with heq
      · exact hhead
      · exact Or.inr (isPatternPlaceholder_common classes t token)

theorem length_merge (template tokens : List Bytes) :
    (mergePatternTemplate classes template tokens).length = template.length := by
  rw [mergePatternTemplate]
  split_ifs with hlength
  · rfl
  · rw [length_zipWith, not_not.mp hlength, Nat.min_self]

end Kinds

/-! ## Pattern texts -/

/-- What `Join` writes for a token. -/
def joinedToken : Bytes :=
  if isPatternPlaceholder token then patternVarPlaceholder else token

/-- `Join`. -/
def joinTokens (tokens : List Bytes) (spacesAfter : List Int) : Bytes :=
  if tokens = [] then [] else dedupHoles (layout joinedToken 0 tokens spacesAfter)

variable {template tokens : List Bytes}

/-- A line fits the pattern of a template that covers its tokens. -/
theorem fits_layout (h : Covers template tokens) (i : Int) (spaces : List Int) :
    fits (layout joinedToken i template spaces) (layout id i tokens spaces) := by
  induction h generalizing i spaces with
  | nil => exact fits_nil
  | @cons t token template tokens hhead _ ih =>
    rw [layout, layout, joinedToken]
    have hrest := fits_append (List.replicate (spaces.takeWhile (· = i)).length 32)
      (ih (i + 1) (spaces.dropWhile (· = i)))
    split_ifs with hplaceholder
    · exact fits_hole token hrest
    · rw [hhead.resolve_right hplaceholder]
      exact fits_append token hrest

theorem fits_joinTokens {classes : CharClasses} {line : Bytes} {spaces : List Int}
    (hfront : line.head? ≠ some 32) (htokens : tokenize classes line = some (tokens, spaces))
    (hcovers : Covers template tokens) : fits (joinTokens template spaces) line := by
  have hlayout := fits_layout hcovers 0 spaces
  rw [layout_tokenize hfront htokens] at hlayout
  rw [joinTokens]
  split_ifs with hnil
  · rw [hnil] at hlayout
    exact hlayout
  · exact fits_dedupHoles hlayout

end LokiVlProxy.Proxy
