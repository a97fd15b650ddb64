/-
  Translator/PushedLabelFormat.lean --- when a pushed-down label_format is the proxy's own.

  A pipe copies its template except for the names in angle brackets.
-/
import LokiVlProxy.Translator.LabelFormat

namespace LokiVlProxy.Translator

open Foundation Logsql List Function PipeFormat
open Logql.Syntax

/-! ## Templates of pipes -/

/-- A template with a name in angle brackets. -/
def Placeholder (s : Runes) : Prop :=
  ∃ a name b, s = a ++ .point '<' :: (name ++ .point '>' :: b)

variable {r : Rune} {s name : Runes} {fs pre post : List LabelFormat}

theorem fill_cons (hr : r ≠ .point '<') (row : Row) (s : Runes) :
    fill row none (r :: s) = r :: fill row none s :=
  fill.eq_4 row r s hr

theorem fill_some_cons (hr : r ≠ .point '>') (row : Row) (name s : Runes) :
    fill row (some name) (r :: s) = fill row (some (name ++ [r])) s :=
  fill.eq_6 row name r s hr

theorem fill_append (h : .point '<' ∉ s) (row : Row) (t : Runes) :
    fill row none (s ++ t) = s ++ fill row none t := by
  induction s with
  | nil => rfl
  | cons r s ih =>
    rw [mem_cons, not_or] at h
    rw [cons_append, fill_cons (fun hr => h.1 hr.symm), ih h.2]
    rfl

theorem fill_some_append (h : .point '>' ∉ s) (row : Row) (name t : Runes) :
    fill row (some name) (s ++ t) = fill row (some (name ++ s)) t := by
  induction s generalizing name with
  | nil => rw [append_nil]; rfl
  | cons r s ih =>
    rw [mem_cons, not_or] at h
    rw [cons_append, fill_some_cons (fun hr => h.1 hr.symm), ih h.2, append_assoc]
    rfl

/-- A placeholder is filled with the value of its field. -/
theorem fill_placeholder {lead trail : Runes} (hlead : .point '<' ∉ lead)
    (hname : .point '>' ∉ name) (htrail : .point '<' ∉ trail) (row : Row) :
    fill row none (lead ++ .point '<' :: (name ++ .point '>' :: trail)) =
      lead ++ row name ++ trail := by
  have hend : fill row none trail = trail := by
    simpa [fill] using fill_append htrail row []
  rw [fill_append hlead, fill, fill_some_append hname, nil_append, fill, hend,
    append_assoc]

theorem fill_some_of_notMem (h : .point '>' ∉ s) (row : Row) (name : Runes) :
    fill row (some name) s = .point '<' :: (name ++ s) := by
  have hend := fill_some_append h row name []
  rwa [append_nil] at hend

theorem placeholder_cons (h : Placeholder s) : Placeholder (r :: s) := by
  obtain ⟨a, name, b, rfl⟩ := h
  exact ⟨r :: a, name, b, rfl⟩

theorem placeholder_open (h : .point '>' ∈ s) : Placeholder (.point '<' :: s) := by
  obtain ⟨name, b, rfl⟩ := append_of_mem h
  exact ⟨[], name, b, rfl⟩

/-- A template without a placeholder is its own value. -/
theorem fill_of_not_placeholder (h : ¬ Placeholder s) (row : Row) : fill row none s = s := by
  induction s with
  | nil => rfl
  | cons r s ih =>
    cases hr : decide (r = .point '<') with
    | true =>
      obtain rfl := of_decide_eq_true hr
      exact fill_some_of_notMem (fun hs => h (placeholder_open hs)) row []
    | false =>
      rw [fill_cons (of_decide_eq_false hr), ih fun hs => h (placeholder_cons hs)]

/-- On a row without names in its values, a template that fills to itself has no names.  The
text `y` is by how far what is filled lags behind the template. -/
theorem not_placeholder_of_fill {row : Row} (hrow : ∀ name, ¬ Placeholder (row name)) (s : Runes) :
    (∀ y, y ++ s = fill row none s → y = [] ∧ ¬ Placeholder s) ∧
      ∀ name y, y ++ .point '<' :: (name ++ s) = fill row (some name) s →
        y = [] ∧ .point '>' ∉ s := by
  induction s with
  | nil =>
    refine ⟨fun y h => ⟨by simpa [fill] using h, ?_⟩, fun name y h => ⟨?_, nofun⟩⟩
    · rintro ⟨a, name, b, h⟩
      simp at h
    · simpa [fill] using h
  | cons r s ih =>
    obtain ⟨ihnone, ihsome⟩ := ih
    constructor
    · intro y h
      cases hr : decide (r = .point '<') with
      | true =>
        obtain rfl := of_decide_eq_true hr
        obtain ⟨hy, hs⟩ := ihsome [] y h
        refine ⟨hy, ?_⟩
        rintro ⟨a, name, b, hab⟩
        refine hs ?_
        cases a with
        | nil | cons r' a => exact (cons.inj hab).2 ▸ by simp
      | false =>
        have hr := of_decide_eq_false hr
        rw [fill_cons hr] at h
        cases y with
        | nil =>
          obtain ⟨-, hs⟩ := ihnone [] (cons.inj h).2
          refine ⟨rfl, ?_⟩
          rintro ⟨a, name, b, hab⟩
          cases a with
          | nil => exact hr (cons.inj hab).1
          | cons r' a => exact hs ⟨a, name, b, (cons.inj hab).2⟩
        | cons r' y =>
          obtain ⟨rfl, h⟩ := cons.inj h
          obtain ⟨hnil, -⟩ := ihnone (y ++ [r']) (by simpa using h)
          simp at hnil
    · intro name y h
      cases hr : decide (r = .point '>') with
      | true =>
        obtain rfl := of_decide_eq_true hr
        rw [fill] at h
        have h : (y ++ .point '<' :: (name ++ [.point '>'])) ++ s = row name ++ fill row none s := by
          simpa using h
        obtain ⟨z, hz, hfill⟩ | ⟨z, hz, hs⟩ := append_eq_append_iff.mp h
        · exact absurd ⟨y, name, z, by simp [hz]⟩ (hrow name)
        · obtain ⟨rfl, -⟩ := ihnone z hs.symm
          exact absurd ⟨y, name, [], by simpa using hz.symm⟩ (hrow name)
      | false =>
        have hr := of_decide_eq_false hr
        rw [fill_some_cons hr] at h
        obtain ⟨hy, hs⟩ := ihsome (name ++ [r]) y (by simpa using h)
        exact ⟨hy, by simp [hs, Ne.symm hr]⟩

/-! ## Assignments of a pushable stage -/

variable {formats : List LabelFormat} {a : LabelFormat}

theorem hasAction_of_pureFieldRef {v : Runes} (h : pureFieldRef v = some name) :
    hasAction v = true := by
  obtain ⟨s, href, hv, -⟩ := pureFieldRef_spec h
  by_contra hno
  refine hasAction_eq_false_iff.mp (Bool.eq_false_iff.mpr hno) ?_
  exact hv ▸ (hasAction_of_fieldRef href).trans (suffix_append _ _).isInfix

/-- What a pushed assignment can be: a constant, or a reference to a label that the stage does not
set. -/
theorem pushable_cases (hpush : labelFormatPushable formats = true) (ha : a ∈ formats)
    (hrename : a.rename = false) :
    (hasAction a.value = false ∧ pureFieldRef a.value = none) ∨
      ∃ name, pureFieldRef a.value = some name ∧ name ∉ formats.map LabelFormat.name := by
  have hall := all_eq_true.mp hpush a ha
  cases href : pureFieldRef a.value with
  | none =>
    rw [hrename, href] at hall
    exact .inl ⟨by simpa using hall, rfl⟩
  | some name =>
    rw [hrename, href, hasAction_of_pureFieldRef href] at hall
    exact .inr ⟨name, rfl, by simpa using hall⟩

theorem ascii_of_reSpace (h : reSpace r = true) : r.IsAscii := by
  cases r with
  | stray b => cases h
  | point c =>
    refine ⟨c, rfl, ?_⟩
    simp only [reSpace, Rune.is, Bool.or_eq_true, decide_eq_true_eq] at h
    obtain (((h | h) | h) | h) | h := h
    all_goals
      rw [h]
      decide

theorem ascii_of_name (h : (reWord r || r = .point '.') = true) : r.IsAscii := by
  cases r with
  | stray b => simp [reWord, Rune.is] at h
  | point c =>
    refine ⟨c, rfl, ?_⟩
    simp only [reWord, Rune.is, Bool.or_eq_true, Bool.and_eq_true, decide_eq_true_eq, Char.le_def,
      UInt32.le_iff_toNat_le, Rune.point.injEq] at h
    have hval : c.toNat = c.val.toNat := rfl
    obtain (((h | h) | h) | h) | h := h
    · rw [h]
      decide
    iterate 3 exact hval ▸ h.2.trans_lt (by decide)
    rw [h]
    decide

theorem decoded_value {right : Runes} (h : WritesValue a right) :
    decode (encode a.value) = a.value := by
  cases h with
  | rename hrename hname => exact hname.decoded
  | double s hrename hs =>
    obtain ⟨v, -, hv⟩ := Option.map_eq_some_iff.mp (scanQuotedString_all hs).2
    rw [← hv, encode_decode]
  | raw hrename hquote hdecoded => exact hdecoded

/-- The template of a pushed pipe survives quoting. -/
theorem decoded_template (hpush : labelFormatPushable formats = true) (ha : a ∈ formats)
    {right : Runes} (h : WritesValue a right) :
    decode (encode (pushedPipe a).template) = (pushedPipe a).template := by
  rw [← replaceRefs_value h]
  cases hrename : a.rename with
  | true =>
    have htemplate := replaceRefs_value h
    rw [pushedPipe, if_pos hrename] at htemplate
    rw [htemplate]
    exact decoded_value h
  | false =>
    obtain ⟨hno, -⟩ | ⟨name, href, -⟩ := pushable_cases hpush ha hrename
    · rw [replaceRefs_of_absent _ (hasAction_eq_false_iff.mp hno)]
      exact decoded_value h
    · obtain ⟨s, hfield, -, htrail⟩ := pureFieldRef_spec href
      obtain ⟨-, -, hname, -⟩ := fieldRef_spec hfield
      rw [replaceRefs_pureFieldRef href]
      refine decode_encode_of_ascii fun r hr => ?_
      simp only [mem_append, mem_cons] at hr
      obtain hr | rfl | hr | rfl | hr := hr
      · exact ascii_of_reSpace (mem_takeWhile_imp hr)
      · exact ⟨_, rfl, by decide⟩
      · exact ascii_of_name (hname r hr)
      · exact ⟨_, rfl, by decide⟩
      · exact ascii_of_reSpace (htrail r hr)

/-- The template of a reference gives the value of its field. -/
theorem fill_pureFieldRef {v : Runes} (href : pureFieldRef v = some name) (row : Row) :
    fill row none (replaceRefs v.length v) =
      v.takeWhile reSpace ++ row name ++ v.rtakeWhile reSpace := by
  obtain ⟨s, hfield, -, htrail⟩ := pureFieldRef_spec href
  obtain ⟨-, -, hname, -⟩ := fieldRef_spec hfield
  have hangle : ∀ {t : Runes}, (∀ r ∈ t, reSpace r = true) → .point '<' ∉ t := by
    intro t ht hmem
    have := ht _ hmem
    simp [reSpace, Rune.is] at this
  rw [replaceRefs_pureFieldRef href]
  refine fill_placeholder (hangle fun r hr => mem_takeWhile_imp hr) ?_ (hangle htrail) row
  intro hmem
  have := hname _ hmem
  simp [reWord, Rune.is] at this

/-! ## What it takes -/

/-- An assignment that means the same in a pipe. -/
structure Pushed (a : LabelFormat) : Prop where
  notRename : a.rename = false
  noPlaceholder : hasAction a.value = false → ¬ Placeholder a.value
  plainField : ∀ name, pureFieldRef a.value = some name → PlainField a.value name

/-- The value that an assignment gives its label. -/
def assigned (labels : Row) (a : LabelFormat) : Runes :=
  match pureFieldRef a.value with
  | some name => a.value.takeWhile reSpace ++ labels name ++ a.value.rtakeWhile reSpace
  | none => a.value

variable (tt : TextTemplate)

section

variable (hpush : labelFormatPushable formats = true)

include hpush

/-- The template engine gives a pushed assignment its value. -/
theorem exec_of_pushed (ha : a ∈ formats) (h : Pushed a) (labels : Row) :
    tt.exec a.value labels = .ok (assigned labels a) := by
  unfold assigned
  obtain ⟨hno, hnone⟩ | ⟨name, href, -⟩ := pushable_cases hpush ha h.notRename
  · rw [hnone]
    exact tt.constant _ _ hno
  · rw [href]
    exact tt.field _ _ _ href (h.plainField name href)

/-- And so does the pipe, on a row that agrees on the labels that the stage does not set. -/
theorem fill_of_pushed (ha : a ∈ formats) (h : Pushed a) {row labels : Row}
    (hrow : ∀ name ∉ formats.map LabelFormat.name, row name = labels name) :
    fill row none (pushedPipe a).template = assigned labels a := by
  unfold assigned pushedPipe
  rw [h.notRename]
  dsimp only
  rw [if_neg Bool.false_ne_true]
  obtain ⟨hno, hnone⟩ | ⟨name, href, hname⟩ := pushable_cases hpush ha h.notRename
  · rw [hnone, replaceRefs_of_absent _ (hasAction_eq_false_iff.mp hno)]
    exact fill_of_not_placeholder (h.noPlaceholder hno) row
  · rw [href, fill_pureFieldRef href, hrow name hname]

/-- The stage computes the values of its assignments from the labels before it. -/
theorem foldl_formatRound (hpushed : ∀ a ∈ formats, Pushed a) (labels : Row) (fs : List LabelFormat)
    (hfs : fs ⊆ formats) (out : List (Runes × Runes)) :
    fs.foldl (formatRound tt) (labels, out) =
      (labels, (fs.map fun a => (a.name, assigned labels a)).reverse ++ out) := by
  induction fs generalizing out with
  | nil => rfl
  | cons a fs ih =>
    have ha : a ∈ formats := hfs mem_cons_self
    have hround : formatRound tt (labels, out) a = (labels, (a.name, assigned labels a) :: out) := by
      rw [formatRound, (hpushed a ha).notRename, if_neg Bool.false_ne_true,
        exec_of_pushed tt hpush ha (hpushed a ha)]
    rw [foldl_cons, hround, ih (fun b hb => hfs (mem_cons_of_mem _ hb))]
    simp

end

theorem lookup_eq_none_of_notMem {out : List (Runes × Runes)} (h : name ∉ out.map Prod.fst) :
    out.lookup name = none := by
  rw [List.lookup_eq_none_iff]
  intro p hp
  simpa using fun heq : name = p.1 => h (heq ▸ mem_map_of_mem hp)

section

variable (hpush : labelFormatPushable formats = true)

include hpush

/-- The pipes, when every assignment is pushed. -/
theorem runPipes_of_pushed (labels : Row) (fs : List LabelFormat) (hfs : fs ⊆ formats)
    (hpushed : ∀ a ∈ fs, Pushed a) (row : Row) (out : List (Runes × Runes))
    (hout : out.map Prod.fst ⊆ formats.map LabelFormat.name)
    (hrow : ∀ name, row name = (out.lookup name).getD (labels name)) (name : Runes) :
    runPipes (fs.map pushedPipe) row name =
      (((fs.map fun a => (a.name, assigned labels a)).reverse ++ out).lookup name).getD
        (labels name) := by
  induction fs generalizing row out with
  | nil => exact hrow name
  | cons a fs ih =>
    have ha : a ∈ formats := hfs mem_cons_self
    have hsame : ∀ n ∉ formats.map LabelFormat.name, row n = labels n := by
      intro n hn
      rw [hrow, lookup_eq_none_of_notMem fun h => hn (hout h)]
      rfl
    have hvalue := fill_of_pushed hpush ha (hpushed a mem_cons_self) hsame
    have hnext := ih (fun b hb => hfs (mem_cons_of_mem _ hb))
      (fun b hb => hpushed b (mem_cons_of_mem _ hb))
      (run row (pushedPipe a)) ((a.name, assigned labels a) :: out)
      (cons_subset.mpr ⟨mem_map_of_mem ha, hout⟩) ?_
    · simpa [runPipes] using hnext
    · intro n
      rw [run, hvalue, lookup_cons]
      show update row a.name _ n = _
      cases hn : n == a.name with
      | true =>
        obtain rfl := eq_of_beq hn
        simp
      | false =>
        rw [update_of_ne (by simpa using hn)]
        exact hrow n

/-- The pipes do what the stage does where every assignment is pushed as written. -/
theorem agrees_of_pushed (hpushed : ∀ a ∈ formats, Pushed a) (row : Row) :
    runPipes (formats.map pushedPipe) row = applyLabelFormat tt formats row := by
  funext name
  rw [applyLabelFormat, foldl_formatRound tt hpush hpushed row formats (List.Subset.refl _)]
  exact runPipes_of_pushed hpush row formats (List.Subset.refl _) hpushed row [] (by simp)
    (fun _ => rfl) name

theorem not_placeholder_assigned (ha : a ∈ formats) (h : Pushed a) :
    ¬ Placeholder (assigned (fun _ => []) a) := by
  unfold assigned
  obtain ⟨hno, hnone⟩ | ⟨name, href, -⟩ := pushable_cases hpush ha h.notRename
  · rw [hnone]
    exact h.noPlaceholder hno
  · rw [href]
    rintro ⟨x, name', y, hxy⟩
    dsimp only at hxy
    have hmem : .point '<' ∈ a.value.takeWhile reSpace ++ [] ++ a.value.rtakeWhile reSpace :=
      hxy ▸ by simp
    rw [append_nil, mem_append] at hmem
    obtain ⟨-, -, -, htrail⟩ := pureFieldRef_spec href
    have hspace : reSpace (.point '<') = true := by
      obtain hmem | hmem := hmem
      · exact mem_takeWhile_imp hmem
      · exact htrail _ hmem
    cases hspace

theorem not_placeholder_runPipes (hfs : fs ⊆ formats) (hpushed : ∀ a ∈ fs, Pushed a)
    (name : Runes) : ¬ Placeholder (runPipes (fs.map pushedPipe) (fun _ => []) name) := by
  rw [runPipes_of_pushed hpush (fun _ => []) fs hfs hpushed (fun _ => []) [] (by simp)
    (fun _ => rfl)]
  cases hlookup : ((fs.map fun b : LabelFormat =>
      (b.name, assigned (fun _ => []) b)).reverse ++ []).lookup name with
  | none => rintro ⟨x, name', y, hxy⟩; simp at hxy
  | some v =>
    obtain ⟨before, after, hlist, -⟩ := lookup_eq_some_iff.mp hlookup
    have hmem : (name, v) ∈ (fs.map fun a => (a.name, assigned (fun _ => []) a)).reverse ++ [] :=
      hlist ▸ by simp
    rw [append_nil, mem_reverse] at hmem
    obtain ⟨b, hb, hpair⟩ := mem_map.mp hmem
    rw [← (Prod.mk.inj hpair).2]
    exact not_placeholder_assigned hpush (hfs hb) (hpushed b hb)

end

/-! ## What an assignment leaves -/

theorem runPipes_of_notMem {pipes : List PipeFormat} (h : name ∉ pipes.map resultField)
    (row : Row) : runPipes pipes row name = row name := by
  induction pipes generalizing row with
  | nil => rfl
  | cons p pipes ih =>
    rw [map_cons, mem_cons, not_or] at h
    exact (ih h.2 (p.run row)).trans (update_of_ne h.1 _ _)

theorem runPipes_append (ps qs : List PipeFormat) (row : Row) :
    runPipes (ps ++ qs) row = runPipes qs (runPipes ps row) :=
  foldl_append

/-- The field of an assignment is set by its own pipe. -/
theorem runPipes_name (hnodup : ((pre ++ a :: post).map LabelFormat.name).Nodup) (row : Row) :
    runPipes ((pre ++ a :: post).map pushedPipe) row a.name =
      fill (runPipes (pre.map pushedPipe) row) none (pushedPipe a).template := by
  have hpost : a.name ∉ (post.map pushedPipe).map resultField := by
    rw [map_append, map_cons, nodup_append] at hnodup
    simpa [pushedPipe] using (nodup_cons.mp hnodup.2.1).1
  rw [map_append, map_cons, runPipes_append]
  refine (runPipes_of_notMem hpost _).trans ?_
  exact update_self _ _ _

theorem lookup_foldl_formatRound (h : name ∉ fs.map LabelFormat.name)
    (st : Row × List (Runes × Runes)) :
    (fs.foldl (formatRound tt) st).2.lookup name = st.2.lookup name := by
  induction fs generalizing st with
  | nil => rfl
  | cons b fs ih =>
    rw [map_cons, mem_cons, not_or] at h
    have hb : (name == b.name) = false := by simpa using h.1
    rw [foldl_cons, ih h.2, formatRound]
    split
    · rw [lookup_cons, hb]
    · split
      · rw [lookup_cons, hb]
      · rfl

/-- The proxy's value of a label: that of its own assignment, or with an error there the labels'. -/
theorem applyLabelFormat_name (hnodup : ((pre ++ a :: post).map LabelFormat.name).Nodup)
    (row : Row) :
    applyLabelFormat tt (pre ++ a :: post) row a.name =
      if a.rename then (pre.foldl (formatRound tt) (row, [])).1 a.value
      else
        match tt.exec a.value (pre.foldl (formatRound tt) (row, [])).1 with
        | .ok v => v
        | .error _ => ((pre ++ a :: post).foldl (formatRound tt) (row, [])).1 a.name := by
  rw [map_append, map_cons, nodup_append] at hnodup
  have hpost := (nodup_cons.mp hnodup.2.1).1
  have hpre : a.name ∉ pre.map LabelFormat.name := fun h => hnodup.2.2 _ h _ mem_cons_self rfl
  have hlookup := lookup_foldl_formatRound tt hpre (row, [])
  have hfinal := lookup_foldl_formatRound tt hpost
    (formatRound tt (pre.foldl (formatRound tt) (row, [])) a)
  rw [applyLabelFormat, foldl_append, foldl_cons]
  generalize pre.foldl (formatRound tt) (row, []) = st at *
  dsimp only
  rw [hfinal, formatRound]
  split
  · rw [lookup_cons, beq_self_eq_true]
    rfl
  · cases tt.exec a.value st.1 with
    | ok v =>
      dsimp only
      rw [lookup_cons, beq_self_eq_true]
      rfl
    | error details =>
      dsimp only
      rw [hlookup]
      rfl

/-! ## Labels that the proxy's evaluation does not touch -/

/-- A pushed template either never fails, or does the same on all labels. -/
theorem exec_uniform (hpush : labelFormatPushable formats = true) (ha : a ∈ formats)
    (hrename : a.rename = false) :
    (∀ labels, ∃ v, tt.exec a.value labels = .ok v) ∨
      ∀ labels labels', tt.exec a.value labels = tt.exec a.value labels' := by
  obtain ⟨hno, -⟩ | ⟨name, href, -⟩ := pushable_cases hpush ha hrename
  · exact .inl fun labels => ⟨_, tt.constant _ _ hno⟩
  · by_cases hplain : PlainField a.value name
    · exact .inl fun labels => ⟨_, tt.field _ _ _ href hplain⟩
    · exact .inr fun labels labels' => tt.other _ _ _ _ href hplain

/-- What the stage makes of a label depends on that label alone. -/
theorem foldl_formatRound_agree (hpush : labelFormatPushable formats = true) (hfs : fs ⊆ formats)
    {k : Runes} {st st' : Row × List (Runes × Runes)} (h : st.1 k = st'.1 k) :
    (fs.foldl (formatRound tt) st).1 k = (fs.foldl (formatRound tt) st').1 k := by
  induction fs generalizing st st' with
  | nil => exact h
  | cons b fs ih =>
    have hb : b ∈ formats := hfs mem_cons_self
    refine ih (fun c hc => hfs (mem_cons_of_mem _ hc)) ?_
    cases hrename : b.rename with
    | true => simpa [formatRound, hrename] using h
    | false =>
      obtain hok | hsame := exec_uniform tt hpush hb hrename
      · obtain ⟨v, hv⟩ := hok st.1
        obtain ⟨v', hv'⟩ := hok st'.1
        simpa [formatRound, hrename, hv, hv'] using h
      · rw [formatRound, formatRound, hrename, hsame st.1 st'.1,
          if_neg Bool.false_ne_true, if_neg Bool.false_ne_true]
        split
        · exact h
        · simp only [setError, update_apply]
          split
          · rfl
          · split
            · rfl
            · exact h

theorem foldl_formatRound_labels (fs : List LabelFormat)
    (hok : ∀ b ∈ fs, b.rename = false → ∀ labels, ∃ v, tt.exec b.value labels = .ok v)
    (st : Row × List (Runes × Runes)) : (fs.foldl (formatRound tt) st).1 = st.1 := by
  induction fs generalizing st with
  | nil => rfl
  | cons b fs ih =>
    refine (ih (fun c hc => hok c (mem_cons_of_mem _ hc)) _).trans ?_
    rw [formatRound]
    split
    · rfl
    · obtain ⟨v, hv⟩ := hok b mem_cons_self (by simpa using ‹¬ b.rename = true›) st.1
      rw [hv]

/-! ## What agreement takes -/

section Agreement

variable (tt : TextTemplate) (hpush : labelFormatPushable formats = true)
  (hnodup : (formats.map LabelFormat.name).Nodup)
  (hagree : ∀ row, runPipes (formats.map pushedPipe) row = applyLabelFormat tt formats row)

include hpush hnodup hagree

/-- A reference that the engine does not take for a field gives the same on rows that differ in
the field. -/
theorem plainField_of_agree (ha : a ∈ formats) (hrename : a.rename = false) {name : Runes}
    (href : pureFieldRef a.value = some name) : PlainField a.value name := by
  by_contra hplain
  have hname : name ∉ formats.map LabelFormat.name := by
    obtain ⟨-, hnone⟩ | ⟨name', href', hname⟩ := pushable_cases hpush ha hrename
    · rw [href] at hnone
      cases hnone
    · rw [href] at href'
      exact Option.some.inj href' ▸ hname
  obtain ⟨pre, post, rfl⟩ := append_of_mem ha
  have hsame : ∀ labels labels', tt.exec a.value labels = tt.exec a.value labels' :=
    fun labels labels' => tt.other _ _ _ _ href hplain
  have hvalue : ∀ row : Row, runPipes ((pre ++ a :: post).map pushedPipe) row a.name =
      a.value.takeWhile reSpace ++ row name ++ a.value.rtakeWhile reSpace := by
    intro row
    have hpre : name ∉ (pre.map pushedPipe).map resultField := by
      simp only [map_append, mem_append, not_or] at hname
      simpa [pushedPipe] using hname.1
    rw [runPipes_name hnodup, pushedPipe, hrename]
    dsimp only
    rw [if_neg Bool.false_ne_true, fill_pureFieldRef href, runPipes_of_notMem hpre]
  have hproxy : ∀ row row' : Row, row a.name = row' a.name →
      applyLabelFormat tt (pre ++ a :: post) row a.name =
        applyLabelFormat tt (pre ++ a :: post) row' a.name := by
    intro row row' hrow
    rw [applyLabelFormat_name tt hnodup, applyLabelFormat_name tt hnodup, hrename,
      if_neg Bool.false_ne_true, if_neg Bool.false_ne_true,
      hsame (pre.foldl (formatRound tt) (row, [])).1 (pre.foldl (formatRound tt) (row', [])).1]
    split
    · rfl
    · exact foldl_formatRound_agree tt hpush (List.Subset.refl _) hrow
  have hne : a.name ≠ name := fun h => hname (h ▸ mem_map_of_mem ha)
  let blank : Row := fun _ => []
  have hrows := hproxy blank (update blank name [.point 'x'])
    (update_of_ne hne _ blank).symm
  rw [← hagree, ← hagree, hvalue, hvalue, update_self] at hrows
  have hlength := congrArg List.length hrows
  simp [blank] at hlength

/-- Where pipes and stage agree, no template fails. -/
theorem exec_ok_of_agree {b : LabelFormat} (hb : b ∈ formats) (hrename : b.rename = false)
    (labels : Row) : ∃ v, tt.exec b.value labels = .ok v := by
  obtain ⟨hno, -⟩ | ⟨name, href, -⟩ := pushable_cases hpush hb hrename
  · exact ⟨_, tt.constant _ _ hno⟩
  · exact ⟨_, tt.field _ _ _ href (plainField_of_agree tt hpush hnodup hagree hb hrename href)⟩

/-- Where pipes and stage agree, an assignment from a bare name is not a rename. -/
theorem notRename_of_agree (ha : a ∈ formats) (hvalue : IsName a.value) : a.rename = false := by
  by_contra hrename
  have hrename : a.rename = true := by simpa using hrename
  have hok : ∀ b ∈ formats, b.rename = false → ∀ labels, ∃ v, tt.exec b.value labels = .ok v :=
    fun b hb hrename => exec_ok_of_agree tt hpush hnodup hagree hb hrename
  obtain ⟨pre, post, rfl⟩ := append_of_mem ha
  have hangle : .point '<' ∉ a.value := hvalue.plain _ (by simp)
  have hcopy : ∀ row : Row, fill row none a.value = a.value := fun row => by
    simpa [fill] using fill_append hangle row []
  have hlabels := foldl_formatRound_labels tt pre
    (fun b hb => hok b (mem_append_left _ hb)) ((fun _ => [] : Row), [])
  have hat := congrFun (hagree fun _ => []) a.name
  rw [runPipes_name hnodup, applyLabelFormat_name tt hnodup, if_pos hrename, hlabels, pushedPipe,
    if_pos hrename, hcopy] at hat
  exact hvalue.ne_nil hat

/-- A constant is pushed down as a template: on an empty row, and with the constants before it
pushed down well, its names would not come back. -/
theorem noPlaceholder_of_agree (hrename : ∀ a ∈ formats, a.rename = false) (post : List LabelFormat)
    (pre : List LabelFormat) (hformats : formats = pre ++ post)
    (hpre : ∀ b ∈ pre, Pushed b) : ∀ a ∈ post, Pushed a := by
  induction post generalizing pre with
  | nil => nofun
  | cons a post ih =>
    have ha : a ∈ formats := hformats ▸ mem_append_right _ mem_cons_self
    have hplain : ∀ name, pureFieldRef a.value = some name → PlainField a.value name := fun name =>
      plainField_of_agree tt hpush hnodup hagree ha (hrename a ha)
    have hpushed : Pushed a := by
      refine ⟨hrename a ha, fun hno => ?_, hplain⟩
      have hclean := not_placeholder_runPipes hpush
        (hformats ▸ subset_append_left pre (a :: post)) hpre
      have hat := congrFun (hagree fun _ => []) a.name
      subst hformats
      rw [runPipes_name hnodup, applyLabelFormat_name tt hnodup, hrename a ha,
        if_neg Bool.false_ne_true, tt.constant _ _ hno, pushedPipe, hrename a ha] at hat
      dsimp only at hat
      rw [if_neg Bool.false_ne_true, replaceRefs_of_absent _ (hasAction_eq_false_iff.mp hno)]
        at hat
      exact ((not_placeholder_of_fill hclean a.value).1 [] hat.symm).2
    refine forall_mem_cons.mpr ⟨hpushed, ih (pre ++ [a]) (by simp [hformats]) ?_⟩
    intro b hb
    obtain hb | hb := mem_append.mp hb
    · exact hpre b hb
    · exact mem_singleton.mp hb ▸ hpushed

end Agreement

theorem writesValue_of_forall₂ {items : List Runes} (h : List.Forall₂ WritesItem formats items) :
    ∀ a ∈ formats, ∃ right, WritesValue a right := by
  induction h with
  | nil => nofun
  | cons hitem _ ih =>
    cases hitem with
    | mk _ _ _ _ right _ _ _ _ _ hright => exact forall_mem_cons.mpr ⟨⟨right, hright⟩, ih⟩

/-- Pushing a pushable stage without raw carriage returns down gives the proxy's own labels on
every row when all assignments are pushed well; in a stage that writes no label twice it does so
only then. -/
theorem label_format_agrees_iff (u : UnicodeTables) (tt : TextTemplate)
    {formats : List LabelFormat} {expr : Runes} (hwrites : WritesStage formats expr)
    (hpush : labelFormatPushable formats = true)
    (hreturn : ∀ item ∈ splitDropItems expr, ¬ RawReturn item) :
    ((∀ a ∈ formats, Pushed a) →
        ∀ row, runPipes (labelFormatPipes u expr) row = applyLabelFormat tt formats row) ∧
      ((formats.map LabelFormat.name).Nodup →
        (∀ row, runPipes (labelFormatPipes u expr) row = applyLabelFormat tt formats row) →
        ∀ a ∈ formats, Pushed a) := by
  have hvalues : ∀ a ∈ formats, ∃ right, WritesValue a right := by
    obtain ⟨items, -, hitems⟩ := hwrites
    exact writesValue_of_forall₂ hitems
  have hpipes : labelFormatPipes u expr = formats.map pushedPipe := by
    refine labelFormatPipes_of_writes u hwrites hreturn fun a ha => ?_
    obtain ⟨right, hright⟩ := hvalues a ha
    exact decoded_template hpush ha hright
  rw [hpipes]
  refine ⟨fun hpushed row => agrees_of_pushed tt hpush hpushed row, fun hnodup hagree => ?_⟩
  have hrename : ∀ a ∈ formats, a.rename = false := by
    intro a ha
    obtain ⟨right, hright⟩ := hvalues a ha
    cases hright with
    | rename h hname => exact notRename_of_agree tt hpush hnodup hagree ha hname
    | double s h | raw h => exact h
  exact noPlaceholder_of_agree tt hpush hnodup hagree hrename formats [] rfl nofun

/-! ## Stages at work -/

/-- The least engine: it knows plain fields only. -/
def fieldTemplates : TextTemplate where
  exec template labels :=
    if hasAction template then
      match pureFieldRef template with
      | some name =>
          if PlainField template name then
            .ok (template.takeWhile reSpace ++ labels name ++ template.rtakeWhile reSpace)
          else .error []
      | none => .error []
    else .ok template
  constant template labels h := if_neg (ne_true_of_eq_false h)
  field template name labels href hplain := by
    rw [if_pos (hasAction_of_pureFieldRef href), href]
    exact if_pos hplain
  other template name labels labels' href hplain := by
    rw [if_pos (hasAction_of_pureFieldRef href), if_pos (hasAction_of_pureFieldRef href), href]
    exact (if_neg hplain).trans (if_neg hplain).symm

def asciiTables : UnicodeTables := ⟨fun _ => false, fun _ => false, fun _ => false⟩

theorem isName_dst : IsName (literal "dst") := by
  have htext : literal "dst" = [.point 'd', .point 's', .point 't'] := by decide +kernel
  refine ⟨nofun, by decide +kernel, ?_, by decide +kernel⟩
  rw [htext]
  simp

theorem isName_src : IsName (literal "src") := by
  have htext : literal "src" = [.point 's', .point 'r', .point 'c'] := by decide +kernel
  refine ⟨nofun, by decide +kernel, ?_, by decide +kernel⟩
  rw [htext]
  simp

theorem writesStage_tight {a : LabelFormat} {right : Runes} (hname : IsName a.name)
    (hright : WritesValue a right) : WritesStage [a] (a.name ++ .point '=' :: right) := by
  have hitem := WritesItem.mk [] [] [] [] right nofun nofun nofun nofun hname hright
  refine ⟨[a.name ++ .point '=' :: right], intercalate_singleton.symm, ?_⟩
  exact .cons (by simpa using hitem) .nil

theorem label_format_agrees_iff_reference :
    runPipes (labelFormatPipes asciiTables (literal "dst=\"\x7b\x7b.src\x7d\x7d\"")) =
      applyLabelFormat fieldTemplates [⟨literal "dst", literal "\x7b\x7b.src\x7d\x7d", false⟩] := by
  have hwrites : WritesStage [⟨literal "dst", literal "\x7b\x7b.src\x7d\x7d", false⟩]
      (literal "dst=\"\x7b\x7b.src\x7d\x7d\"") :=
    writesStage_tight isName_dst (.double (literal "\x7b\x7b.src\x7d\x7d\"") rfl (by decide +kernel))
  funext row
  refine (label_format_agrees_iff asciiTables fieldTemplates hwrites (by decide +kernel)
    (by decide +kernel)).1 ?_ row
  refine forall_mem_singleton.mpr ⟨rfl, nofun, fun name hname => ?_⟩
  have hsrc : pureFieldRef (literal "\x7b\x7b.src\x7d\x7d") = some (literal "src") := by
    decide +kernel
  obtain rfl := Option.some.inj (hname.symm.trans hsrc)
  decide +kernel

/-- `dst=src` is pushable, and its pipe writes the text `src`. -/
theorem rename_pushed_as_text :
    ∃ (formats : List LabelFormat) (expr : Runes) (row : Row),
      WritesStage formats expr ∧ labelFormatPushable formats = true ∧
      runPipes (labelFormatPipes asciiTables expr) row (literal "dst") = literal "src" ∧
      applyLabelFormat fieldTemplates formats row (literal "dst") = literal "v" := by
  refine ⟨[⟨literal "dst", literal "src", true⟩], literal "dst=src",
    fun name => if name = literal "src" then literal "v" else [], ?_, ?_, ?_, ?_⟩
  · exact writesStage_tight isName_dst (.rename rfl isName_src)
  all_goals decide +kernel

end LokiVlProxy.Translator
