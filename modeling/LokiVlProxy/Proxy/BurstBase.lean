/-
  Proxy/BurstBase.lean --- the common base of the field queries of one panel.

  Source: internal/proxy/drilldown_burst_coalescer.go: drilldownFieldFilterRE,
  drilldownParserPipeRE, extractCommonBase.

  A field query counts the rows that match a query with a filter for a field that is there.
-/
import LokiVlProxy.Foundation.Text

namespace LokiVlProxy.Proxy

open Foundation List Option

/-! ## The text -/

/-- White space of a regular expression. -/
def reBlank (c : Char) : Bool := ['\t', '\n', '\x0c', '\r', ' '].contains c

/-- A word character of a regular expression. -/
def reWord (c : Char) : Bool := c.isAlphanum || c == '_'

/-- A character of a field name that is not quoted. -/
def plainName (c : Char) : Bool := reWord c || c == '.'

variable (t : Text)

/-- Whether the text begins like the end of a filter for a field that is there. -/
def readsPresent : Bool :=
  (":!\"\"".toList.isPrefixOf t) ||
    ("!=".toList.isPrefixOf (t.dropWhile reBlank) &&
      "\"\"".toList.isPrefixOf (((t.dropWhile reBlank).drop 2).dropWhile reBlank))

/-- The name at the front of a text, quoted or plain, and the text behind it. -/
def readName : Option (Text × Text) :=
  if t.head? = some '"' then
    if t.tail.takeWhile (· ≠ '"') = [] ∨ t.tail.dropWhile (· ≠ '"') = [] then none
    else some (t.tail.takeWhile (· ≠ '"'), (t.tail.dropWhile (· ≠ '"')).tail)
  else if t.takeWhile plainName = [] then none
  else some (t.takeWhile plainName, t.dropWhile plainName)

/-- The field of a match of `drilldownFieldFilterRE` at a bar, from the text behind the bar. -/
def filterField : Option Text :=
  if "filter".toList.isPrefixOf (t.dropWhile reBlank) ∧
      ((t.dropWhile reBlank).drop 6).head?.any reBlank then
    (readName (((t.dropWhile reBlank).drop 6).dropWhile reBlank)).bind fun p =>
      if readsPresent p.2 then some p.1 else none
  else none

/-- The text before the first match, and its field. -/
def findFilter : Text → Option (Text × Text)
  | [] => none
  | c :: t =>
      match (if c = '|' then filterField t else none) with
      | some field => some ([], field)
      | none => (findFilter t).map fun p => (c :: p.1, p.2)

/-- Whether the text behind a bar begins like a parser. -/
def readsParser : Bool :=
  ["unpack_json".toList, "unpack_logfmt".toList, "json".toList, "logfmt".toList].any fun name =>
    name.isPrefixOf (t.dropWhile reBlank) &&
      !((t.dropWhile reBlank).drop name.length).head?.any reWord

/-- The text without the matches of `drilldownParserPipeRE`; the text is read in at most as
many steps as it is long. -/
def removeParserPipes : Nat → Text → Text
  | 0, t => t
  | _ + 1, [] => []
  | n + 1, c :: t =>
      if c = '|' ∧ readsParser t = true then removeParserPipes n (t.dropWhile (· ≠ '|'))
      else c :: removeParserPipes n t

def extractCommonBase (baseQuery : Text) : Option (Text × Text) :=
  (findFilter baseQuery).map fun p => (trimSpace (removeParserPipes p.1.length p.1), p.2)

/-- No place of `before` is a match, when `behind` follows it. -/
def NoMatch (before behind : Text) : Prop :=
  ∀ a b, before = a ++ '|' :: b → filterField (b ++ behind) = none

/-- No place of the text reads like a parser pipe. -/
def NoParser : Prop := ∀ a b, t = a ++ '|' :: b → readsParser b = false

/-- The first presence filter is the one found. -/
theorem findFilter_of_noMatch {before rest field : Text} (h : NoMatch before ('|' :: rest))
    (hfield : filterField rest = some field) :
    findFilter (before ++ '|' :: rest) = some (before, field) := by
  induction before with
  | nil =>
    rw [nil_append, findFilter, if_pos rfl, hfield]
  | cons c before ih =>
    have hhere : (if c = '|' then filterField (before ++ '|' :: rest) else none) = none := by
      split
      · rename_i hbar
        exact h [] before (by rw [hbar, nil_append])
      · rfl
    rw [cons_append, findFilter, hhere]
    simp only
    rw [ih fun a b hab => h (c :: a) b (by rw [hab, cons_append]), Option.map_some]

theorem removeParserPipes_of_noParser {t : Text} (h : NoParser t) (n : Nat) :
    removeParserPipes n t = t := by
  induction n generalizing t with
  | zero => rfl
  | succ n ih =>
    cases t with
    | nil => rfl
    | cons c t =>
      have hhere : ¬ (c = '|' ∧ readsParser t = true) := by
        intro hc
        have hnot := h [] t (by rw [hc.1, nil_append])
        rw [hc.2] at hnot
        exact Bool.false_ne_true hnot.symm
      rw [removeParserPipes, if_neg hhere, ih fun a b hab => h (c :: a) b (by
        rw [hab, cons_append])]

/-! ## The filter for a field that is there -/

/-- How the condition ends: as the translator writes it, or as the query has it. -/
inductive PresenceMark where
  | colon
  | differs (lead gap : Nat)
  deriving DecidableEq, Repr

def PresenceMark.text : PresenceMark → Text
  | .colon => ":!\"\"".toList
  | .differs lead gap =>
      List.replicate lead ' ' ++ ("!=".toList ++ (List.replicate gap ' ' ++ "\"\"".toList))

/-- The condition, with the name plain or quoted. -/
def presence (quoted : Bool) (mark : PresenceMark) (name : Text) : Text :=
  (if quoted then '"' :: name ++ ['"'] else name) ++ mark.text

/-- A name that can be written so. -/
def Writable (quoted : Bool) (name : Text) : Prop :=
  name ≠ [] ∧ if quoted then ∀ c ∈ name, c ≠ '"' else ∀ c ∈ name, plainName c = true

variable {name : Text}

theorem readName_quoted (hne : name ≠ []) (hplain : ∀ c ∈ name, c ≠ '"') (rest : Text) :
    readName ('"' :: (name ++ '"' :: rest)) = some (name, rest) := by
  have hpos : ∀ c ∈ name, (decide (c ≠ '"')) = true := fun c hc => decide_eq_true (hplain c hc)
  have htake : (name ++ '"' :: rest).takeWhile (· ≠ '"') = name := by
    rw [takeWhile_append_of_pos hpos, takeWhile_cons_of_neg (by simp), append_nil]
  have hdrop : (name ++ '"' :: rest).dropWhile (· ≠ '"') = '"' :: rest := by
    rw [dropWhile_append_of_pos hpos, dropWhile_cons_of_neg (by simp)]
  rw [readName, if_pos (by rfl), tail_cons, htake, hdrop,
    if_neg (by simp [hne]), tail_cons]

theorem readName_plain {rest : Text} (hne : name ≠ []) (hplain : ∀ c ∈ name, plainName c = true)
    (hrest : ∀ c ∈ rest.head?, plainName c = false) :
    readName (name ++ rest) = some (name, rest) := by
  have hstop : rest.takeWhile plainName = [] ∧ rest.dropWhile plainName = rest := by
    cases rest with
    | nil => exact ⟨rfl, rfl⟩
    | cons c rest =>
      have hc : ¬ plainName c = true := by simp [hrest c rfl]
      exact ⟨takeWhile_cons_of_neg hc, dropWhile_cons_of_neg hc⟩
  have htake : (name ++ rest).takeWhile plainName = name := by
    rw [takeWhile_append_of_pos hplain, hstop.1, append_nil]
  have hdrop : (name ++ rest).dropWhile plainName = rest := by
    rw [dropWhile_append_of_pos hplain, hstop.2]
  have hhead : ¬ (name ++ rest).head? = some '"' := by
    intro hquote
    cases name with
    | nil => exact hne rfl
    | cons c name =>
      have hc : c = '"' := by simpa using hquote
      have hword := hplain c (by simp)
      rw [hc] at hword
      exact absurd hword (by decide)
  rw [readName, if_neg hhead, htake, hdrop, if_neg hne]

theorem filterField_filter {t : Text} (ht : ∀ c ∈ t.head?, reBlank c = false) :
    filterField (" filter ".toList ++ t) =
      (readName t).bind fun p => if readsPresent p.2 then some p.1 else none := by
  have hblank : (" filter ".toList ++ t).dropWhile reBlank = "filter ".toList ++ t := rfl
  have hdrop : ("filter ".toList ++ t).drop 6 = ' ' :: t := rfl
  have hname : (' ' :: t).dropWhile reBlank = t := by
    rw [dropWhile_cons_of_pos (by decide)]
    cases t with
    | nil => rfl
    | cons c t => exact dropWhile_cons_of_neg (by simp [ht c rfl])
  rw [filterField, hblank, hdrop, hname, if_pos ⟨rfl, rfl⟩]

theorem plainName_not_blank {c : Char} (h : plainName c = true) : reBlank c = false := by
  by_contra hblank
  have hmem : c ∈ ['\t', '\n', '\x0c', '\r', ' '] :=
    contains_iff_mem.mp (Bool.not_eq_false _ ▸ hblank)
  simp only [mem_cons, not_mem_nil, or_false] at hmem
  rcases hmem with hc | hc | hc | hc | hc <;> (rw [hc] at h; exact absurd h (by decide))

theorem dropWhile_blanks (n : Nat) {t : Text} (ht : ∀ c ∈ t.head?, reBlank c = false) :
    (List.replicate n ' ' ++ t).dropWhile reBlank = t := by
  have hblank : ∀ c ∈ List.replicate n ' ', reBlank c = true := by
    intro c hc
    rw [eq_of_mem_replicate hc]
    decide
  rw [dropWhile_append_of_pos hblank]
  cases t with
  | nil => rfl
  | cons c t => exact dropWhile_cons_of_neg (by simp [ht c rfl])

theorem readsPresent_mark (mark : PresenceMark) (rest : Text) :
    readsPresent (mark.text ++ rest) = true := by
  cases mark with
  | colon => rfl
  | differs lead gap =>
    have hlead : ((PresenceMark.differs lead gap).text ++ rest).dropWhile reBlank =
        "!=".toList ++ (List.replicate gap ' ' ++ ("\"\"".toList ++ rest)) := by
      rw [PresenceMark.text, append_assoc, append_assoc, append_assoc]
      exact dropWhile_blanks lead (by simp [reBlank])
    have hgap : (("!=".toList ++ (List.replicate gap ' ' ++ ("\"\"".toList ++ rest))).drop
        2).dropWhile reBlank = "\"\"".toList ++ rest :=
      dropWhile_blanks gap (by simp [reBlank])
    rw [readsPresent, hlead, hgap, Bool.or_eq_true, Bool.and_eq_true]
    exact Or.inr ⟨rfl, rfl⟩

theorem mark_head (mark : PresenceMark) (rest : Text) :
    ∀ c ∈ (mark.text ++ rest).head?, plainName c = false := by
  intro c hc
  cases mark with
  | colon =>
    have hcolon : ':' = c := some.inj hc
    rw [← hcolon]
    decide
  | differs lead gap =>
    cases lead with
    | zero =>
      have hbang : '!' = c := some.inj hc
      rw [← hbang]
      decide
    | succ lead =>
      have hspace : ' ' = c := some.inj hc
      rw [← hspace]
      decide

variable {quoted : Bool}

section

variable (h : Writable quoted name) (mark : PresenceMark) (rest : Text)

include h

theorem readName_presence :
    readName (presence quoted mark name ++ rest) = some (name, mark.text ++ rest) := by
  cases quoted with
  | true =>
    have htext : presence true mark name ++ rest = '"' :: (name ++ '"' :: (mark.text ++ rest)) := by
      simp [presence]
    rw [htext, readName_quoted h.1 (by simpa [Writable] using h.2)]
  | false =>
    have htext : presence false mark name ++ rest = name ++ (mark.text ++ rest) := by
      simp [presence]
    rw [htext, readName_plain h.1 (by simpa [Writable] using h.2) (mark_head mark rest)]

theorem presence_head : ∀ c ∈ (presence quoted mark name ++ rest).head?, reBlank c = false := by
  intro c hc
  cases quoted with
  | true =>
    have hquote : '"' = c := some.inj hc
    rw [← hquote]
    decide
  | false =>
    have hplain : ∀ c ∈ name, plainName c = true := by simpa [Writable] using h.2
    have htext : presence false mark name ++ rest = name ++ (mark.text ++ rest) := by
      simp [presence]
    rw [htext, head?_append_of_ne_nil _ h.1] at hc
    exact plainName_not_blank (hplain c (mem_of_mem_head? hc))

/-- A presence filter is read back as its field, whatever its form. -/
theorem filterField_presence :
    filterField (" filter ".toList ++ (presence quoted mark name ++ rest)) = some name := by
  rw [filterField_filter (presence_head h mark rest), readName_presence h, Option.bind_some,
    if_pos (readsPresent_mark mark rest)]

end

/-! ## Queries -/

/-- A row: the value of each field, empty where it has none. -/
abbrev FieldRow := Text → Text

inductive BasePipe where
  | filter (condition : Text)
  | delete (fields : List Text)
  deriving DecidableEq, Repr

/-- The names of a delete pipe. -/
def namesText : List Text → Text
  | [] => []
  | [name] => name
  | name :: names => name ++ ", ".toList ++ namesText names

def BasePipe.text : BasePipe → Text
  | .filter condition => "filter ".toList ++ condition
  | .delete fields => "delete ".toList ++ namesText fields

/-- How the backend reads the condition of a filter: `name:!""` asks for a value of the field. -/
structure ConditionReading where
  holds : Text → FieldRow → Bool
  present : ∀ quoted mark name, Writable quoted name → ∀ row,
    holds (presence quoted mark name) row = decide (row name ≠ [])

/-- A base query: the filter in front, and the pipes. -/
structure BaseQuery where
  condition : Text
  pipes : List BasePipe
  deriving DecidableEq, Repr

variable (reading : ConditionReading)

/-- A filter keeps a row as it is or drops it; a delete pipe takes fields from the row. -/
def BasePipe.run : BasePipe → FieldRow → Option FieldRow
  | .filter condition, row => if reading.holds condition row then some row else none
  | .delete fields, row => some fun name => if name ∈ fields then [] else row name

def runPipes (pipes : List BasePipe) (row : FieldRow) : Option FieldRow :=
  pipes.foldlM (fun row pipe => pipe.run reading row) row

theorem runPipes_append (first rest : List BasePipe) (row : FieldRow) :
    runPipes reading (first ++ rest) row =
      (runPipes reading first row).bind (runPipes reading rest) := by
  rw [runPipes, foldlM_append]
  rfl

theorem runPipes_deletes {pipes : List BasePipe}
    (h : ∀ pipe ∈ pipes, ∃ fields, pipe = .delete fields) (row : FieldRow) :
    (runPipes reading pipes row).isSome = true := by
  induction pipes generalizing row with
  | nil => rfl
  | cons pipe pipes ih =>
    obtain ⟨fields, hpipe⟩ := h pipe (by simp)
    rw [hpipe]
    exact ih (fun pipe' hmem => h pipe' (mem_cons_of_mem _ hmem)) _

namespace BaseQuery

def pipeText (pipe : BasePipe) : Text := " | ".toList ++ pipe.text

theorem pipeText_filter (condition : Text) :
    pipeText (.filter condition) = ' ' :: '|' :: (" filter ".toList ++ condition) := rfl

/-- The query as it is written. -/
def text (q : BaseQuery) : Text := q.condition ++ q.pipes.flatMap pipeText

/-- The row as the query leaves it, if it matches. -/
def run (reading : ConditionReading) (q : BaseQuery) (row : FieldRow) : Option FieldRow :=
  if reading.holds q.condition row then runPipes reading q.pipes row else none

/-- The base with the filter for a field and more pipes behind it. -/
def withFilter (base : BaseQuery) (quoted : Bool) (mark : PresenceMark) (field : Text) (after : List BasePipe) :
    BaseQuery :=
  ⟨base.condition, base.pipes ++ .filter (presence quoted mark field) :: after⟩

/-- The text of the base does not mislead: no bar in it reads like a filter for a field that
is there or like a parser, and there is no white space around it. -/
structure Plain (base : BaseQuery) (quoted : Bool) (mark : PresenceMark) (field : Text) (after : List BasePipe) :
    Prop where
  writable : Writable quoted field
  first : NoMatch (base.text ++ [' '])
    ('|' :: (" filter ".toList ++ (presence quoted mark field ++ after.flatMap pipeText)))
  noParser : NoParser (base.text ++ [' '])
  trimmed : Trimmed base.text

variable {base : BaseQuery} {quoted : Bool} {mark : PresenceMark} {field : Text} {after : List BasePipe}

/-- The base and the field of a plain member are read back from its text. -/
theorem extractCommonBase_text (h : Plain base quoted mark field after) :
    extractCommonBase (base.withFilter quoted mark field after).text = some (base.text, field) := by
  have htext : (base.withFilter quoted mark field after).text = (base.text ++ [' ']) ++
      '|' :: (" filter ".toList ++ (presence quoted mark field ++ after.flatMap pipeText)) := by
    rw [text, withFilter, flatMap_append, flatMap_cons, pipeText_filter, text]
    simp only [append_assoc, cons_append, nil_append]
  have htrim : trimSpace (base.text ++ [' ']) = base.text := by
    rw [trimSpace_append_right (by simp [isSpace]), trimSpace_of_trimmed h.trimmed]
  have hfound := findFilter_of_noMatch h.first
    (filterField_presence h.writable mark (after.flatMap pipeText))
  rw [extractCommonBase, htext, hfound, Option.map_some,
    removeParserPipes_of_noParser h.noParser, htrim]

/-- A member keeps the rows of its base that have the field. -/
theorem run_withFilter (reading : ConditionReading) (hname : Writable quoted field)
    (row : FieldRow) :
    (base.withFilter quoted mark field after).run reading row =
      (base.run reading row).bind fun left =>
        if left field ≠ [] then runPipes reading after left else none := by
  rw [run, run, withFilter]
  simp only
  split
  · rw [runPipes_append]
    congr 1
    funext left
    rw [runPipes, foldlM_cons, BasePipe.run, reading.present quoted mark field hname]
    by_cases hfield : left field = []
    · simp [hfield]
    · simp [hfield, runPipes]
  · rfl

/-- The base and the field say the same as the query exactly when the pipes behind the filter
drop no row that gets there. -/
theorem extractCommonBase_exact_iff (reading : ConditionReading)
    (h : Plain base quoted mark field after) :
    extractCommonBase (base.withFilter quoted mark field after).text = some (base.text, field) ∧
      ((∀ row, ((base.withFilter quoted mark field after).run reading row).isSome = true ↔
          ∃ left, base.run reading row = some left ∧ left field ≠ []) ↔
        ∀ row left, base.run reading row = some left → left field ≠ [] →
          (runPipes reading after left).isSome = true) := by
  refine ⟨extractCommonBase_text h, ?_, ?_⟩
  · intro hsame row left hleft hfield
    have hmatches := (hsame row).mpr ⟨left, hleft, hfield⟩
    rw [run_withFilter reading h.writable, hleft, Option.bind_some, if_pos hfield] at hmatches
    exact hmatches
  · intro hkept row
    rw [run_withFilter reading h.writable]
    constructor
    · intro hmatches
      cases hleft : base.run reading row with
      | none =>
        rw [hleft] at hmatches
        exact absurd hmatches Bool.false_ne_true
      | some left =>
        refine ⟨left, rfl, ?_⟩
        rw [hleft, Option.bind_some] at hmatches
        intro hnone
        rw [if_neg (not_not.mpr hnone)] at hmatches
        exact Bool.false_ne_true hmatches
    · intro hfound
      obtain ⟨left, hleft, hfield⟩ := hfound
      rw [hleft, Option.bind_some, if_pos hfield]
      exact hkept row left hleft hfield

end BaseQuery

/-! ## A reading -/

/-- A reading with three kinds of conditions: `name:!""`, `name:="value"` and `*`. -/
def fieldReading : ConditionReading where
  holds condition row :=
    match readName condition with
    | some (name, rest) =>
        if readsPresent rest then decide (row name ≠ [])
        else decide (rest = ":=\"".toList ++ row name ++ ['"'])
    | none => true
  present quoted mark name h row := by
    have hname := readName_presence h mark []
    rw [append_nil] at hname
    rw [hname]
    simp only [readsPresent_mark, if_true]

theorem plain_everything (field : Text) (after : List BasePipe) (h : Writable false field) :
    BaseQuery.Plain ⟨['*'], []⟩ false .colon field after := by
  have hnone : ∀ a b : Text, ['*', ' '] ≠ a ++ '|' :: b := by
    intro a b hab
    have hmem : '|' ∈ ['*', ' '] := by rw [hab]; simp
    exact absurd hmem (by decide)
  exact ⟨h, fun a b hab => absurd hab (hnone a b), fun a b hab => absurd hab (hnone a b),
    by simp [BaseQuery.text, isSpace], by simp [BaseQuery.text, isSpace]⟩

/-- A delete pipe behind the filter does no harm. -/
theorem extractCommonBase_exact_delete :
    extractCommonBase (BaseQuery.withFilter ⟨['*'], []⟩ false .colon "trace_id".toList
        [.delete ["level".toList]]).text = some (['*'], "trace_id".toList) ∧
      ∀ row, ((BaseQuery.withFilter ⟨['*'], []⟩ false .colon "trace_id".toList
          [.delete ["level".toList]]).run fieldReading row).isSome = true ↔
        ∃ left, BaseQuery.run fieldReading ⟨['*'], []⟩ row = some left ∧
          left "trace_id".toList ≠ [] := by
  have hletters : "trace_id".toList.all plainName = true := by decide
  have hname : Writable false "trace_id".toList := ⟨by simp, all_eq_true.mp hletters⟩
  have hexact := BaseQuery.extractCommonBase_exact_iff fieldReading
    (plain_everything "trace_id".toList [.delete ["level".toList]] hname)
  refine ⟨hexact.1, hexact.2.mpr ?_⟩
  intro row left _ _
  exact runPipes_deletes fieldReading (by simp) left

/-- A filter behind the one for the field is lost: a row that it drops is counted. -/
theorem not_extractCommonBase_exact :
    extractCommonBase "* | filter trace_id:!\"\" | filter level:=\"error\"".toList =
        some (['*'], "trace_id".toList) ∧
      (BaseQuery.mk ['*'] [.filter "trace_id:!\"\"".toList,
        .filter "level:=\"error\"".toList]).text =
          "* | filter trace_id:!\"\" | filter level:=\"error\"".toList ∧
      ∃ row, (∃ left, BaseQuery.run fieldReading ⟨['*'], []⟩ row = some left ∧
          left "trace_id".toList ≠ []) ∧
        BaseQuery.run fieldReading ⟨['*'], [.filter "trace_id:!\"\"".toList,
          .filter "level:=\"error\"".toList]⟩ row = none := by
  refine ⟨by decide +kernel, by decide +kernel, fun _ => "info".toList, ⟨_, rfl, ?_⟩, ?_⟩
  · decide
  · rfl

end LokiVlProxy.Proxy
