/-
  Proxy/QueryWindows.lean --- the windows of a split query range.

  Source: internal/proxy/query_range_windowing.go: splitQueryRangeWindowsWithOptions.

  Instants are Go's `int64` nanoseconds and the arithmetic wraps as it does there.
-/
import Mathlib
import LokiVlProxy.Foundation.OrderedParts

namespace LokiVlProxy.Proxy

open Foundation List Option

def maxQueryRangeWindows : Nat := 4096

/-- `queryRangeWindow`: both ends belong to the window. -/
@[ext]
structure Window where
  startNs : Int64
  endNs : Int64
  deriving DecidableEq, Repr

namespace Window

/-- The window as a pair of integers. -/
def span (w : Window) : Int × Int := (w.startNs.toInt, w.endNs.toInt)

/-- `windows[len(windows)-1].endNs = endNs`. -/
def extendLast (windows : List Window) (endNs : Int64) : List Window :=
  match windows.getLast? with
  | none => windows
  | some last => windows.dropLast ++ [{ last with endNs := endNs }]

/-- The loop over the rest of the range, from `cursor` on. -/
def splitLoop (step endNs cursor : Int64) (windows : List Window) : List Window :=
  if cursor ≤ endNs ∧ windows.length < maxQueryRangeWindows then
    if cursor = endNs ∧ windows ≠ [] then extendLast windows endNs
    else
      let windowEnd := cursor + step - 1
      let windowEnd := if windowEnd < cursor ∨ windowEnd > endNs then endNs else windowEnd
      let windows := windows ++ [⟨cursor, windowEnd⟩]
      if windowEnd = Int64.maxValue then windows
      else splitLoop step endNs (windowEnd + 1) windows
  else windows
termination_by maxQueryRangeWindows - windows.length
decreasing_by
  simp only [length_append, length_singleton]
  omega

/-- The last instant before the next multiple of the interval. -/
def alignedEnd (startNs step : Int64) : Int64 :=
  let rem := startNs % step
  let rem := if rem < 0 then rem + step else rem
  startNs + (step - rem) - 1

/-- The windows in order of time.  With alignment the first one ends before the next
multiple of the interval. -/
def splitInOrder (startNs endNs step : Int64) (align : Bool) : List Window :=
  if align ∧ startNs % step ≠ 0 ∧ alignedEnd startNs step ≥ startNs then
    let firstEnd := if alignedEnd startNs step > endNs then endNs else alignedEnd startNs step
    if firstEnd = endNs ∨ 1 ≥ maxQueryRangeWindows then [⟨startNs, firstEnd⟩]
    else splitLoop step endNs (firstEnd + 1) [⟨startNs, firstEnd⟩]
  else splitLoop step endNs startNs []

/-- `splitQueryRangeWindowsWithOptions`; `none` is the panic of `make` on a negative
capacity, which the wrapped length of a very long range can be. -/
def splitQueryRangeWindowsWithOptions (startNs endNs interval : Int64) (direction : String)
    (align : Bool) : Option (List Window) :=
  if interval ≤ 0 ∨ endNs < startNs then some []
  else if (endNs - startNs) / interval + 1 < 0 then none
  else
    let windows := splitInOrder startNs endNs interval align
    some (if direction = "forward" then windows else windows.reverse)

/-! ## The windows tile the range -/

theorem bmod_of_small {x : Int} (h : -2 ^ 63 ≤ x) (h' : x < 2 ^ 63) : x.bmod (2 ^ 64) = x := by
  rw [Int.bmod_def]
  split <;> omega

theorem toInt_succ {x : Int64} (h : x ≠ Int64.maxValue) : (x + 1).toInt = x.toInt + 1 := by
  have hlt := x.toInt_lt
  have hle := x.le_toInt
  have hne : x.toInt ≠ Int64.maxValue.toInt := fun heq => h (Int64.toInt_inj.mp heq)
  rw [Int64.toInt_maxValue] at hne
  have hone : (1 : Int64).toInt = 1 := by decide
  rw [Int64.toInt_add, hone, bmod_of_small] <;> omega

variable {windows : List Window} {step cursor endNs startNs interval : Int64} {a : Int}
  {direction : String} {align : Bool}

theorem span_map_extendLast {last : Window} (endNs : Int64) :
    (extendLast (windows ++ [last]) endNs).map span =
      windows.map span ++ [(last.startNs.toInt, endNs.toInt)] := by
  simp [extendLast, span]

/-- A sum that wraps is below the cursor, so the end of a window is the exact one. -/
theorem windowEnd_eq (hstep : 0 < step.toInt) (hle : cursor ≤ endNs) :
    (if cursor + step - 1 < cursor ∨ cursor + step - 1 > endNs then endNs
      else cursor + step - 1).toInt = min (cursor.toInt + step.toInt - 1) endNs.toInt := by
  have hle' := Int64.le_iff_toInt_le.mp hle
  have hsum : (cursor + step - 1).toInt = (cursor.toInt + step.toInt - 1).bmod (2 ^ 64) := by
    rw [Int64.toInt_sub, Int64.toInt_add]
    simp
  have hlo := cursor.le_toInt
  have hhi := cursor.toInt_lt
  have hstepHi := step.toInt_lt
  have hend := endNs.toInt_lt
  rw [Int.bmod_def] at hsum
  split
  all_goals
    rename_i hcut
    rw [gt_iff_lt, Int64.lt_iff_toInt_lt, Int64.lt_iff_toInt_lt] at hcut
    split at hsum <;> omega

/-- Where the windows start. -/
def starts (windows : List Window) : List Int := windows.map fun w => w.startNs.toInt

theorem starts_extendLast (windows : List Window) (endNs : Int64) :
    starts (extendLast windows endNs) = starts windows := by
  rcases eq_nil_or_concat windows with rfl | ⟨init, last, rfl⟩
  · rfl
  · simp [extendLast, starts]

theorem ediv_sub_self (x : Int) {step : Int} (hstep : 0 < step) : x / step = (x - step) / step + 1 := by
  have h := Int.add_mul_ediv_right (x - step) 1 hstep.ne'
  rwa [Int.one_mul, Int.sub_add_cancel] at h

/-- How many windows the loop makes from the cursor on, behind so many others. -/
def loopCount (step endNs cursor : Int) (made : Nat) : Nat :=
  min (max (if made = 0 then 1 else 0) ((endNs - cursor + step - 1) / step)).toNat
    (maxQueryRangeWindows - made)

/-- A window is made while the range goes on. -/
theorem loopCount_succ {step endNs cursor : Int} {made : Nat} (hstep : 0 < step)
    (hle : cursor ≤ endNs) (hmade : made < maxQueryRangeWindows) (hlast : cursor = endNs → made = 0) :
    loopCount step endNs cursor made =
      loopCount step endNs (min (cursor + step - 1) endNs + 1) (made + 1) + 1 := by
  have hdiv := ediv_sub_self (endNs - cursor + step - 1) hstep
  rw [show endNs - cursor + step - 1 - step = endNs - cursor - 1 by omega] at hdiv
  simp only [loopCount, Nat.add_one_ne_zero, if_false]
  rw [hdiv]
  by_cases hmore : cursor + step - 1 < endNs
  · have hpos := Int.ediv_nonneg (by omega : 0 ≤ endNs - cursor - 1) hstep.le
    rw [Int.min_eq_left hmore.le, show endNs - (cursor + step - 1 + 1) + step - 1 =
      endNs - cursor - 1 by omega]
    split <;> omega
  · have hover : (endNs - (endNs + 1) + step - 1) / step < 1 :=
      Int.ediv_lt_of_lt_mul hstep (by omega)
    rw [Int.min_eq_right (by omega)]
    by_cases hone : cursor = endNs
    · have hback : (endNs - cursor - 1) / step < 0 := Int.ediv_lt_of_lt_mul hstep (by omega)
      rw [if_pos (hlast hone)]
      omega
    · have hzero := Int.ediv_eq_zero_of_lt (by omega : 0 ≤ endNs - cursor - 1)
        (by omega : endNs - cursor - 1 < step)
      split <;> omega

/-- None is made behind the range or behind as many windows as are made. -/
theorem loopCount_eq_zero {step endNs cursor : Int} {made : Nat} (hstep : 0 < step)
    (h : made ≠ 0 ∧ endNs ≤ cursor ∨ maxQueryRangeWindows ≤ made) :
    loopCount step endNs cursor made = 0 := by
  rw [loopCount]
  obtain ⟨hne, hover⟩ | hfull := h
  · have hlt : (endNs - cursor + step - 1) / step < 1 := Int.ediv_lt_of_lt_mul hstep (by omega)
    rw [if_neg hne]
    omega
  · omega

/-- The windows that the loop adds start at the cursor and then one interval apart. -/
theorem starts_splitLoop (hstep : 0 < step.toInt) (hle : cursor ≤ endNs ∨ windows ≠ []) :
    starts (splitLoop step endNs cursor windows) = starts windows ++
      (range (loopCount step.toInt endNs.toInt cursor.toInt windows.length)).map
        fun k : Nat => cursor.toInt + k * step.toInt := by
  fun_induction splitLoop step endNs cursor windows with
  | case1 cursor windows hcond hlast =>
    rw [starts_extendLast, loopCount_eq_zero hstep (.inl ⟨by simpa using hlast.2, by rw [hlast.1]⟩)]
    simp
  | case2 cursor windows hcond hlast windowEnd windowEnd' windows' hmax =>
    have hend : windowEnd'.toInt = _ := windowEnd_eq hstep hcond.1
    have hle' := Int64.le_iff_toInt_le.mp hcond.1
    have hall : endNs.toInt ≤ windowEnd'.toInt + 1 := by
      have hbound := Int64.toInt_le endNs
      have hhere : windowEnd'.toInt = Int64.maxValue.toInt := congrArg Int64.toInt hmax
      omega
    rw [loopCount_succ hstep hle' hcond.2 (fun heq => ?_), ← hend,
      loopCount_eq_zero hstep (.inl ⟨Nat.add_one_ne_zero _, hall⟩)]
    · simp [windows', starts]
    · simpa using not_and.mp hlast (Int64.toInt_inj.mp heq)
  | case3 cursor windows hcond hlast windowEnd windowEnd' windows' hmax ih =>
    have hend : windowEnd'.toInt = _ := windowEnd_eq hstep hcond.1
    have hle' := Int64.le_iff_toInt_le.mp hcond.1
    have hnext := toInt_succ hmax
    have hlength : windows'.length = windows.length + 1 := by simp [windows']
    rw [ih (.inr (by simp [windows'])), loopCount_succ hstep hle' hcond.2 (fun heq => ?_), hlength,
      hnext, ← hend, range_succ_eq_map, map_cons, List.map_map]
    · by_cases hover : endNs.toInt ≤ windowEnd'.toInt
      · rw [loopCount_eq_zero hstep (.inl ⟨Nat.add_one_ne_zero _, by omega⟩)]
        simp [windows', starts]
      · have hcursor : windowEnd'.toInt + 1 = cursor.toInt + step.toInt := by omega
        simp only [windows', starts, map_append, map_singleton, append_assoc, singleton_append]
        congr 2
        · simp
        · refine map_congr_left fun k _ => ?_
          simp only [Function.comp, Nat.succ_eq_add_one, hcursor]
          push_cast
          ring
    · simpa using not_and.mp hlast (Int64.toInt_inj.mp heq)
  | case4 cursor windows hstop =>
    rw [Int64.le_iff_toInt_le] at hstop hle
    rw [loopCount_eq_zero hstep]
    · simp
    · by_cases hfull : maxQueryRangeWindows ≤ windows.length
      · exact .inr hfull
      · have hover : ¬ cursor.toInt ≤ endNs.toInt := fun hin => hstop ⟨hin, by omega⟩
        exact .inl ⟨by simpa using hle.resolve_left hover, by omega⟩

/-- The windows tile the range from `a` up to `e`, which is the end of the range or as far as
the windows that may be made reach. -/
structure Reaches (a : Int) (endNs : Int64) (e : Int) (windows : List Window) : Prop where
  tiles : Tiles a e (windows.map span)
  le_end : e ≤ endNs.toInt
  length_le : windows.length ≤ maxQueryRangeWindows
  full : e ≠ endNs.toInt → windows.length = maxQueryRangeWindows

/-- How far the loop gets: to the end of the range, if there are not too many intervals up to
there. -/
theorem reaches_splitLoop (hstep : 0 < step.toInt) (hle : cursor.toInt ≤ endNs.toInt + 1)
    (hlen : windows.length ≤ maxQueryRangeWindows)
    (h : Tiles a (cursor.toInt - 1) (windows.map span)) :
    ∃ e, Reaches a endNs e (splitLoop step endNs cursor windows) ∧
      (e = endNs.toInt ↔ cursor.toInt ≤ endNs.toInt →
        (endNs.toInt - cursor.toInt) / step.toInt < maxQueryRangeWindows - windows.length) := by
  fun_induction splitLoop step endNs cursor windows with
  | case1 cursor windows hcond hlast =>
    -- one instant is left: the last window takes it
    obtain ⟨init, last, rfl⟩ := (eq_nil_or_concat windows).resolve_left hlast.2
    rw [concat_eq_append, map_append, map_singleton] at h
    obtain ⟨hend, hspan, hinit⟩ := h.of_snoc
    refine ⟨endNs.toInt, ⟨?_, Int.le_refl _, ?_, fun hne => absurd rfl hne⟩,
      iff_of_true rfl fun _ => ?_⟩
    · rw [concat_eq_append, span_map_extendLast]
      refine hinit.snoc ?_
      rw [hlast.1] at hend
      simp only [span] at hend hspan ⊢
      omega
    · simpa [extendLast] using hlen
    · have hroom := hcond.2
      rw [hlast.1, Int.sub_self, Int.zero_ediv]
      omega
  | case2 cursor windows hcond _ windowEnd windowEnd' windows' hmax =>
    have hend : windowEnd'.toInt = _ := windowEnd_eq hstep hcond.1
    have hle' := Int64.le_iff_toInt_le.mp hcond.1
    have hall : windowEnd'.toInt = endNs.toInt := by
      have hbound := Int64.toInt_le endNs
      have hhere : windowEnd'.toInt = Int64.maxValue.toInt := congrArg Int64.toInt hmax
      omega
    have hroom := hcond.2
    refine ⟨endNs.toInt, ⟨?_, Int.le_refl _, ?_, fun hne => absurd rfl hne⟩,
      iff_of_true rfl fun _ => ?_⟩
    · rw [map_append, ← hall]
      exact h.snoc (by omega)
    · rw [length_append, length_singleton]
      omega
    · rw [Int.ediv_eq_zero_of_lt (by omega) (by omega)]
      omega
  | case3 cursor windows hcond _ windowEnd windowEnd' windows' hmax ih =>
    have hend : windowEnd'.toInt = _ := windowEnd_eq hstep hcond.1
    have hle' := Int64.le_iff_toInt_le.mp hcond.1
    have hnext := toInt_succ hmax
    have hroom := hcond.2
    have hlength : windows'.length = windows.length + 1 := by simp [windows']
    obtain ⟨e, hreaches, hall⟩ := ih (by omega) (by omega) (by
      rw [hnext, Int.add_sub_cancel, map_append]
      exact h.snoc (by omega))
    refine ⟨e, hreaches, hall.trans ?_⟩
    by_cases hover : endNs.toInt < (windowEnd' + 1).toInt
    · refine iff_of_true (fun hin => absurd hin (by omega)) fun _ => ?_
      rw [Int.ediv_eq_zero_of_lt (by omega) (by omega)]
      omega
    · have hcursor : (windowEnd' + 1).toInt = cursor.toInt + step.toInt := by omega
      rw [hcursor, hlength, ediv_sub_self (endNs.toInt - cursor.toInt) hstep, ← Int.sub_sub]
      constructor <;> intro hlt hin <;> have := hlt (by omega) <;> omega
  | case4 cursor windows hstop =>
    rw [Int64.le_iff_toInt_le] at hstop
    refine ⟨_, ⟨h, by omega, hlen, by omega⟩, ?_⟩
    constructor
    · intro hall hin
      omega
    · intro hlt
      by_contra hne
      have hin : cursor.toInt ≤ endNs.toInt := by omega
      have hdiv := Int.ediv_nonneg (Int.sub_nonneg.mpr hin) hstep.le
      have hlt' := hlt hin
      omega

/-- How far the start is past a multiple of the interval. -/
theorem toInt_rem (hstep : 0 < step.toInt) :
    let rem := startNs % step
    (if rem < 0 then rem + step else rem).toInt = startNs.toInt % step.toInt := by
  intro rem
  have hrem : rem.toInt = startNs.toInt.tmod step.toInt := Int64.toInt_mod _ _
  have hmod := @Int.tmod_eq_emod startNs.toInt step.toInt
  have hnonneg := Int.emod_nonneg startNs.toInt hstep.ne'
  have hlt := Int.emod_lt_of_pos startNs.toInt hstep
  have hstepHi := step.toInt_lt
  have hzero : (0 : Int64).toInt = 0 := rfl
  split
  · next hneg =>
    rw [Int64.lt_iff_toInt_lt, hzero] at hneg
    rw [Int64.toInt_add, bmod_of_small] <;> split at hmod <;> omega
  · next hpos =>
    rw [Int64.lt_iff_toInt_lt, hzero] at hpos
    split at hmod <;> omega

/-- The aligned end is exact unless it wraps, and then it is before the start. -/
theorem alignedEnd_cases (startNs : Int64) (hstep : 0 < step.toInt) :
    let exactEnd := startNs.toInt + (step.toInt - startNs.toInt % step.toInt) - 1
    (alignedEnd startNs step).toInt = exactEnd ∨
      ¬ alignedEnd startNs step ≥ startNs ∧ 2 ^ 63 ≤ exactEnd := by
  intro exactEnd
  have hnonneg := Int.emod_nonneg startNs.toInt hstep.ne'
  have hlt := Int.emod_lt_of_pos startNs.toInt hstep
  have hstepHi := step.toInt_lt
  have hlo := startNs.le_toInt
  have hhi := startNs.toInt_lt
  have hend : (alignedEnd startNs step).toInt = exactEnd.bmod (2 ^ 64) := by
    rw [alignedEnd, Int64.toInt_sub, Int64.toInt_add, Int64.toInt_sub, toInt_rem hstep]
    simp [exactEnd]
  by_cases hfits : exactEnd < 2 ^ 63
  · exact .inl (hend.trans (bmod_of_small (by omega) hfits))
  · refine .inr ⟨?_, by omega⟩
    rw [ge_iff_le, Int64.le_iff_toInt_le, hend, Int.bmod_def]
    split <;> omega

theorem mod_ne_zero_iff : startNs % step ≠ 0 ↔ startNs.toInt % step.toInt ≠ 0 := by
  rw [ne_eq, ← Int64.toInt_inj, Int64.toInt_mod, Int64.toInt_zero, ← Int.dvd_iff_tmod_eq_zero,
    Int.dvd_iff_emod_eq_zero]

/-- The first window ends before a multiple of the interval. -/
def StartsAligned (startNs step : Int64) (align : Bool) : Prop :=
  align ∧ startNs % step ≠ 0 ∧ alignedEnd startNs step ≥ startNs
  deriving Decidable

/-- The first window is the whole range, or it ends before the next multiple of the interval
and the loop goes on from there, or the loop makes it. -/
theorem splitInOrder_cases (startNs endNs : Int64) (align : Bool) (hstep : 0 < step.toInt) :
    let rem := startNs.toInt % step.toInt
    (StartsAligned startNs step align ∧ splitInOrder startNs endNs step align =
        [⟨startNs, endNs⟩] ∧ endNs.toInt - startNs.toInt + rem < step.toInt ∧
      startNs.toInt - rem + step.toInt ≤ 2 ^ 63) ∨
    (StartsAligned startNs step align ∧ ∃ firstEnd cursor : Int64,
      splitInOrder startNs endNs step align = splitLoop step endNs cursor [⟨startNs, firstEnd⟩] ∧
        firstEnd.toInt = cursor.toInt - 1 ∧ cursor.toInt = startNs.toInt - rem + step.toInt ∧
        cursor.toInt ≤ endNs.toInt) ∨
    (¬ StartsAligned startNs step align ∧
      splitInOrder startNs endNs step align = splitLoop step endNs startNs [] ∧
      (align = true → rem = 0 ∨ 2 ^ 63 < startNs.toInt - rem + step.toInt)) := by
  intro rem
  have hend := endNs.toInt_lt
  have hlt := Int.emod_lt_of_pos startNs.toInt hstep
  unfold splitInOrder
  split
  · next hfirst =>
    have hexact := (alignedEnd_cases startNs hstep).resolve_right fun hwrap => hwrap.1 hfirst.2.2
    dsimp only
    by_cases hcut : alignedEnd startNs step ≥ endNs
    · -- the first window is cut off at the end of the range
      have hall : (if alignedEnd startNs step > endNs then endNs else alignedEnd startNs step) =
          endNs := by
        split
        · rfl
        · next hgt => exact Int64.le_antisymm (Int64.not_lt.mp hgt) hcut
      rw [hall, if_pos (.inl rfl)]
      rw [ge_iff_le, Int64.le_iff_toInt_le] at hcut
      have hbound := (alignedEnd startNs step).toInt_lt
      exact .inl ⟨hfirst, rfl, by omega, by omega⟩
    · have hlt' : (alignedEnd startNs step).toInt < endNs.toInt := by
        rwa [ge_iff_le, Int64.le_iff_toInt_le, Int.not_le] at hcut
      have hgt : ¬ alignedEnd startNs step > endNs := by
        rw [gt_iff_lt, Int64.lt_iff_toInt_lt]
        omega
      have hne : alignedEnd startNs step ≠ endNs := fun heq => by
        rw [heq] at hlt'
        omega
      have hnext : (alignedEnd startNs step + 1).toInt = (alignedEnd startNs step).toInt + 1 := by
        refine toInt_succ fun hmax => ?_
        rw [hmax, Int64.toInt_maxValue] at hlt'
        omega
      rw [if_neg hgt, if_neg (by simp [hne, maxQueryRangeWindows])]
      exact .inr (.inl ⟨hfirst, _, _, rfl, by omega, by omega, by omega⟩)
  · next hnone =>
    refine .inr (.inr ⟨hnone, rfl, fun halign => ?_⟩)
    by_cases hmod : startNs.toInt % step.toInt = 0
    · exact .inl hmod
    · -- the aligned end wraps
      have hwrap := (alignedEnd_cases startNs hstep).resolve_left fun hexact =>
        hnone ⟨halign, mod_ne_zero_iff.mpr hmod, Int64.le_iff_toInt_le.mpr (by omega)⟩
      exact .inr (by omega)

/-- The windows reach the end of the range if there are not too many intervals up to there,
counted from the start or, with alignment, from the multiple of the interval before it. -/
theorem reaches_splitInOrder (align : Bool) (hstep : 0 < step.toInt)
    (hle : startNs.toInt ≤ endNs.toInt) :
    ∃ e, Reaches startNs.toInt endNs e (splitInOrder startNs endNs step align) ∧
      (e = endNs.toInt ↔ (endNs.toInt - startNs.toInt +
        if align then startNs.toInt % step.toInt else 0) / step.toInt < maxQueryRangeWindows) := by
  have hnonneg := Int.emod_nonneg startNs.toInt hstep.ne'
  have hempty : Tiles startNs.toInt (startNs.toInt - 1) [] := by simp [Tiles]
  obtain ⟨⟨halign, -⟩, hsplit, hshort, -⟩ |
    ⟨⟨halign, -⟩, firstEnd, cursor, hsplit, hfirst, hcursor, hin⟩ | ⟨-, hsplit, hrest⟩ :=
    splitInOrder_cases startNs endNs align hstep
  · rw [hsplit, if_pos halign, Int.ediv_eq_zero_of_lt (by omega) hshort]
    exact ⟨_, ⟨hempty.snoc hle, Int.le_refl _, by simp [maxQueryRangeWindows],
      fun hne => absurd rfl hne⟩, iff_of_true rfl (by decide)⟩
  · have hone : Tiles startNs.toInt (cursor.toInt - 1) ([Window.mk startNs firstEnd].map span) :=
      hfirst ▸ hempty.snoc (by have := Int.emod_lt_of_pos startNs.toInt hstep; omega)
    obtain ⟨e, hreaches, hreach⟩ := @reaches_splitLoop [_] step cursor endNs _ hstep (by omega)
      (by simp [maxQueryRangeWindows]) hone
    refine ⟨e, hsplit ▸ hreaches, hreach.trans ?_⟩
    rw [if_pos halign, ediv_sub_self (_ + _) hstep, show endNs.toInt - startNs.toInt +
      startNs.toInt % step.toInt - step.toInt = endNs.toInt - cursor.toInt by omega,
      length_singleton]
    omega
  · obtain ⟨e, hreaches, hreach⟩ := @reaches_splitLoop [] step _ endNs _ hstep (by omega)
      (Nat.zero_le _) hempty
    refine ⟨e, hsplit ▸ hreaches, hreach.trans ?_⟩
    have hshift : (endNs.toInt - startNs.toInt + if align then startNs.toInt % step.toInt else 0) /
        step.toInt = (endNs.toInt - startNs.toInt) / step.toInt := by
      split
      · next halign =>
        obtain hmod | hwraps := hrest halign
        · rw [hmod, Int.add_zero]
        · have hend := endNs.toInt_lt
          rw [Int.ediv_eq_zero_of_lt (by omega) (by omega),
            Int.ediv_eq_zero_of_lt (by omega) (by omega)]
      · rw [Int.add_zero]
    rw [hshift, length_nil]
    omega

/-- With alignment the windows after the first start at multiples of the interval. -/
theorem aligned_splitInOrder (hstep : 0 < step.toInt) (hle : startNs ≤ endNs) :
    ∀ c ∈ (starts (splitInOrder startNs endNs step true)).tail, step.toInt ∣ c := by
  have hfloor : step.toInt ∣ startNs.toInt - startNs.toInt % step.toInt := Int.dvd_self_sub_emod
  have hmult : ∀ {first c : Int} {n : Nat},
      c ∈ (range n).map (fun k : Nat => first + k * step.toInt) → step.toInt ∣ c - first := by
    intro first c n hc
    obtain ⟨k, -, rfl⟩ := mem_map.mp hc
    exact ⟨k, by ring⟩
  intro c hc
  obtain ⟨-, hsplit, -⟩ | ⟨-, firstEnd, cursor, hsplit, -, hcursor, hin⟩ | ⟨-, hsplit, hrest⟩ :=
    splitInOrder_cases startNs endNs true hstep
  · rw [hsplit] at hc
    cases hc
  · rw [hsplit, starts_splitLoop hstep (.inr (cons_ne_nil _ _))] at hc
    have hsum := Int.dvd_add (hmult hc) (Int.dvd_add hfloor (Int.dvd_refl step.toInt))
    rwa [hcursor, Int.sub_add_cancel] at hsum
  · rw [hsplit, starts_splitLoop hstep (.inl hle)] at hc
    obtain hmod | hwraps := hrest rfl
    · rw [hmod, Int.sub_zero] at hfloor
      simpa using Int.dvd_add (hmult (mem_of_mem_tail hc)) hfloor
    · -- the range ends within the first interval
      have hnonneg := Int.emod_nonneg startNs.toInt hstep.ne'
      have hend := endNs.toInt_lt
      have hone : loopCount step.toInt endNs.toInt startNs.toInt 0 ≤ 1 := by
        have hlt : (endNs.toInt - startNs.toInt + step.toInt - 1) / step.toInt < 2 :=
          Int.ediv_lt_of_lt_mul hstep (by omega)
        rw [loopCount]
        omega
      have hlength := length_pos_of_mem hc
      simp only [starts, map_nil, nil_append, length_tail, length_map, length_range, length_nil]
        at hlength
      omega

theorem pos_of_pos (h : 0 < step) : 0 < step.toInt := Int64.lt_iff_toInt_lt.mp h

/-- When `make` is given a negative capacity. -/
theorem capacity_neg_iff (hpos : 0 < interval) (hle : startNs ≤ endNs) :
    let length := endNs.toInt - startNs.toInt
    (endNs - startNs) / interval + 1 < 0 ↔
      length = 2 ^ 63 - 1 ∧ interval.toInt = 1 ∨
        2 ^ 63 ≤ length ∧ 2 * interval.toInt ≤ 2 ^ 64 - length := by
  intro length
  have hstep := pos_of_pos hpos
  have hle' := Int64.le_iff_toInt_le.mp hle
  have hlo := startNs.le_toInt
  have hhi := endNs.toInt_lt
  have hzero : (0 : Int64).toInt = 0 := rfl
  have hone : (1 : Int64).toInt = 1 := rfl
  rw [Int64.lt_iff_toInt_lt, Int64.toInt_add, Int64.toInt_div, Int64.toInt_sub, hzero, hone]
  change ((Int.bmod ((Int.bmod length (2 ^ 64)).tdiv interval.toInt) (2 ^ 64)) + 1).bmod (2 ^ 64) < 0 ↔ _
  by_cases hsmall : length < 2 ^ 63
  · have hnonneg := Int.ediv_nonneg (by omega : 0 ≤ length) hstep.le
    have hdiv := Int.ediv_le_self interval.toInt (by omega : 0 ≤ length)
    have hmul := Int.ediv_mul_le length hstep.ne'
    have hquot : (length / interval.toInt).bmod (2 ^ 64) = length / interval.toInt :=
      bmod_of_small (by omega) (by omega)
    rw [bmod_of_small (by omega) hsmall, Int.tdiv_eq_ediv_of_nonneg (by omega), hquot,
      Int.bmod_def]
    constructor
    · intro hneg
      have hall : length / interval.toInt = 2 ^ 63 - 1 := by split at hneg <;> omega
      rw [hall] at hmul
      omega
    · rintro (⟨hall, hone⟩ | hlarge)
      · rw [hall, hone]
        decide
      · omega
  · have hwrapped : length.bmod (2 ^ 64) = -(2 ^ 64 - length) := by
      rw [Int.bmod_def]
      split <;> omega
    have hnonneg := Int.ediv_nonneg (by omega : 0 ≤ 2 ^ 64 - length) hstep.le
    have hdiv := Int.ediv_le_self interval.toInt (by omega : 0 ≤ 2 ^ 64 - length)
    have hquot : (-((2 ^ 64 - length) / interval.toInt)).bmod (2 ^ 64) =
        -((2 ^ 64 - length) / interval.toInt) := bmod_of_small (by omega) (by omega)
    rw [hwrapped, Int.neg_tdiv, Int.tdiv_eq_ediv_of_nonneg (by omega), hquot,
      bmod_of_small (by omega) (by omega)]
    have htwo : 2 ≤ (2 ^ 64 - length) / interval.toInt ↔ 2 * interval.toInt ≤ 2 ^ 64 - length :=
      Int.le_ediv_iff_mul_le hstep
    omega

section Split

variable (h : splitQueryRangeWindowsWithOptions startNs endNs interval direction align = some windows)

include h

/-- The windows tile the range up to where the loop ended. -/
theorem tiles_of_split (hne : windows ≠ []) :
    ∃ (e : Int) (inOrder : List Window), e ≤ endNs.toInt ∧
      Tiles startNs.toInt e (inOrder.map span) ∧
      windows = if direction = "forward" then inOrder else inOrder.reverse := by
  unfold splitQueryRangeWindowsWithOptions at h
  split at h
  · exact absurd (some.inj h).symm hne
  · next hguard =>
    rw [not_or, Int64.not_le, Int64.not_lt] at hguard
    split at h
    · cases h
    · obtain ⟨e, hreaches, -⟩ := reaches_splitInOrder align (pos_of_pos hguard.1)
        (Int64.le_iff_toInt_le.mp hguard.2)
      exact ⟨e, _, hreaches.le_end, hreaches.tiles, (some.inj h).symm⟩

/-- Windows that reach the end tile the whole range. -/
theorem tiles_split (hend : ∃ w ∈ windows, w.endNs = endNs) :
    ∃ inOrder : List Window, Tiles startNs.toInt endNs.toInt (inOrder.map span) ∧
      windows = if direction = "forward" then inOrder else inOrder.reverse := by
  obtain ⟨w, hw, hwend⟩ := hend
  obtain ⟨e, inOrder, he, htiles, rfl⟩ := tiles_of_split h (ne_nil_of_mem hw)
  refine ⟨inOrder, ?_, rfl⟩
  have hmem : w ∈ inOrder := by
    split at hw
    · exact hw
    · exact mem_reverse.mp hw
  have hbound : w.endNs.toInt ≤ e := (htiles.bounds (mem_map_of_mem hmem)).2.2
  rw [hwend] at hbound
  rwa [Int.le_antisymm he hbound] at htiles

/-- No two windows overlap. -/
theorem pairwise_split :
    windows.Pairwise fun w w' => w.span.2 < w'.span.1 ∨ w'.span.2 < w.span.1 := by
  rcases eq_nil_or_concat windows with rfl | ⟨_, _, hconcat⟩
  · exact .nil
  obtain ⟨e, inOrder, -, htiles, rfl⟩ := tiles_of_split h (by simp [hconcat])
  have hasc := pairwise_map.mp htiles.pairwise
  split
  · exact hasc.imp fun {w w'} hlt => .inl hlt
  · exact pairwise_reverse.mpr (hasc.imp fun {w w'} hlt => .inr hlt)

theorem nodup_split : windows.Nodup := by
  rcases eq_nil_or_concat windows with rfl | ⟨_, _, hconcat⟩
  · exact .nil
  obtain ⟨e, inOrder, -, htiles, rfl⟩ := tiles_of_split h (by simp [hconcat])
  have hnodup := htiles.nodup.of_map span
  split
  · exact hnodup
  · exact nodup_reverse.mpr hnodup

end Split

/-! ## The windows returned -/

/-- The windows from the oldest to the newest. -/
def inOrder (direction : String) (windows : List Window) : List Window :=
  if direction = "forward" then windows else windows.reverse

/-- Where the loop adds the interval: it makes all windows, or all but the aligned first one. -/
def loopStarts (startNs step : Int64) (align : Bool) (windows : List Window) : List Int :=
  if StartsAligned startNs step align then (starts windows).tail else starts windows

/-- The windows of a range, as the caller counts on them. -/
structure TilesRange (startNs endNs interval : Int64) (direction : String) (align : Bool)
    (windows : List Window) : Prop where
  reaches : ∃ e, Reaches startNs.toInt endNs e (inOrder direction windows)
  aligned : align = true → ∀ c ∈ (starts (inOrder direction windows)).tail, interval.toInt ∣ c
  /-- no sum of the loop wraps -/
  exact_sums : ∀ c ∈ loopStarts startNs interval align (inOrder direction windows),
    c + interval.toInt < 2 ^ 63

theorem inOrder_split (direction : String) (windows : List Window) :
    inOrder direction (if direction = "forward" then windows else windows.reverse) = windows := by
  unfold inOrder
  split <;> simp

/-- The split, with its loop and its two directions spelled out. -/
theorem split_eq (direction : String) (align : Bool) (hpos : 0 < interval) (hle : startNs ≤ endNs) :
    splitQueryRangeWindowsWithOptions startNs endNs interval direction align =
      if (endNs - startNs) / interval + 1 < 0 then none
      else some (if direction = "forward" then splitInOrder startNs endNs interval align
        else (splitInOrder startNs endNs interval align).reverse) := by
  rw [splitQueryRangeWindowsWithOptions, if_neg]
  rw [not_or, Int64.not_le, Int64.not_lt]
  exact ⟨hpos, hle⟩

/-- Where the windows are counted from: the start, or the multiple of the interval before it. -/
def countedFrom (startNs interval : Int) (align : Bool) : Int :=
  startNs - if align then startNs % interval else 0

theorem forall_add_lt_iff {first step bound : Int} {n : Nat} (hstep : 0 < step) :
    (∀ c ∈ (range n).map (fun k : Nat => first + k * step), c + step < bound) ↔
      n = 0 ∨ first + n * step < bound := by
  cases n with
  | zero => simp
  | succ n =>
    rw [List.forall_mem_map]
    simp only [mem_range, Nat.add_one_ne_zero, false_or]
    constructor
    · intro h
      have hlast := h n n.lt_succ_self
      push_cast
      linarith
    · intro h k hk
      have hle : (k : Int) * step ≤ n * step :=
        Int.mul_le_mul_of_nonneg_right (by omega) hstep.le
      push_cast at h
      linarith

/-- The sums of the loop, on the bounds of the range: the last one leads to the end of the last
window that is made, counted in whole intervals.  A first window that ends with the last instant
there is needs no sum of the loop. -/
theorem exact_sums_iff (align : Bool) (hstep : 0 < step.toInt) (hle : startNs ≤ endNs) :
    let first := countedFrom startNs.toInt step.toInt align
    (∀ c ∈ loopStarts startNs step align (splitInOrder startNs endNs step align),
        c + step.toInt < 2 ^ 63) ↔
      first + loopCount step.toInt endNs.toInt first 0 * step.toInt < 2 ^ 63 ∨
        align = true ∧ startNs.toInt % step.toInt ≠ 0 ∧ first + step.toInt = 2 ^ 63 := by
  intro first
  have hle' := Int64.le_iff_toInt_le.mp hle
  have hend := endNs.toInt_lt
  have hnonneg := Int.emod_nonneg startNs.toInt hstep.ne'
  have hlt := Int.emod_lt_of_pos startNs.toInt hstep
  have hfirst : first = startNs.toInt - if align then startNs.toInt % step.toInt else 0 := rfl
  have hone : ∀ {first : Int}, first ≤ endNs.toInt →
      1 ≤ (loopCount step.toInt endNs.toInt first 0 : Int) := by
    intro first hin
    rw [loopCount_succ hstep hin (by decide) fun _ => rfl]
    omega
  obtain ⟨haligned, hsplit, hshort, hfits⟩ | ⟨haligned, firstEnd, cursor, hsplit, -, hcursor, hin⟩ |
    ⟨hnot, hsplit, hrest⟩ := splitInOrder_cases startNs endNs align hstep
  · rw [if_pos haligned.1] at hfirst
    have hcount : loopCount step.toInt endNs.toInt first 0 ≤ 1 := by
      have hdiv : (endNs.toInt - first + step.toInt - 1) / step.toInt < 2 :=
        Int.ediv_lt_of_lt_mul hstep (by omega)
      rw [loopCount]
      omega
    have hthis : (loopCount step.toInt endNs.toInt first 0 : Int) = 1 := by
      have := hone (by omega : first ≤ endNs.toInt)
      omega
    rw [hsplit, loopStarts, if_pos haligned, hthis, Int.one_mul]
    refine iff_of_true (by simp [starts]) ?_
    obtain hlt | heq := (hfirst ▸ hfits : first + step.toInt ≤ 2 ^ 63).lt_or_eq
    · exact .inl hlt
    · exact .inr ⟨haligned.1, mod_ne_zero_iff.mp haligned.2.1, heq⟩
  · rw [if_pos haligned.1] at hfirst
    have hcount := loopCount_succ hstep (by omega : first ≤ endNs.toInt) (by decide : 0 < _)
      fun _ => rfl
    rw [Int.min_eq_left (by omega), show first + step.toInt - 1 + 1 = cursor.toInt by omega] at hcount
    rw [hsplit, loopStarts, if_pos haligned, starts_splitLoop hstep (.inr (cons_ne_nil _ _)), hcount]
    simp only [starts, map_singleton, singleton_append, tail_cons, length_singleton,
      forall_add_lt_iff hstep]
    push_cast
    rw [Int.add_mul, Int.one_mul, or_iff_left (b := _ ∧ _) (by omega)]
    constructor
    · rintro (hzero | hsum)
      · rw [hzero]
        push_cast
        omega
      · omega
    · intro hsum
      right
      omega
  · rw [hsplit, loopStarts, if_neg hnot, starts_splitLoop hstep (.inl hle)]
    simp only [starts, map_nil, nil_append, length_nil, forall_add_lt_iff hstep]
    have hpos := hone hle'
    rw [or_iff_right (by omega)]
    by_cases hwraps : align = true ∧ 2 ^ 63 < startNs.toInt - startNs.toInt % step.toInt + step.toInt
    · rw [if_pos hwraps.1] at hfirst
      have hmany := Int.mul_le_mul_of_nonneg_right hpos hstep.le
      have hmany' := Int.mul_le_mul_of_nonneg_right (hone (by omega : first ≤ endNs.toInt)) hstep.le
      exact iff_of_false (by omega) (by omega)
    · have hthis : first = startNs.toInt ∧ ¬ (align = true ∧ startNs.toInt % step.toInt ≠ 0) := by
        cases align with
        | false => exact ⟨by simpa using hfirst, by simp⟩
        | true =>
          have hmod := (hrest rfl).resolve_right fun h => hwraps ⟨rfl, h⟩
          rw [if_pos rfl, hmod, Int.sub_zero] at hfirst
          exact ⟨hfirst, by simp [hmod]⟩
      rw [hthis.1, or_iff_left fun h => hthis.2 ⟨h.1, h.2.1⟩]

/-- A range is tiled unless it is so long that the capacity of the windows wraps; the sums of
the loop are exact if the windows, counted in whole intervals, end before the last instant there
is. -/
theorem tilesRange_iff {startNs endNs interval : Int64} (direction : String) (align : Bool)
    (hle : startNs ≤ endNs) (hlength : endNs.toInt - startNs.toInt < 2 ^ 63)
    (hpos : 0 < interval) :
    (∃ windows, splitQueryRangeWindowsWithOptions startNs endNs interval direction align =
        some windows ∧ TilesRange startNs endNs interval direction align windows) ↔
      ¬ (endNs.toInt - startNs.toInt = 2 ^ 63 - 1 ∧ interval.toInt = 1) ∧
        (countedFrom startNs.toInt interval.toInt align + loopCount interval.toInt endNs.toInt
            (countedFrom startNs.toInt interval.toInt align) 0 * interval.toInt < 2 ^ 63 ∨
          align = true ∧ startNs.toInt % interval.toInt ≠ 0 ∧
            countedFrom startNs.toInt interval.toInt align + interval.toInt = 2 ^ 63) := by
  have hstep := pos_of_pos hpos
  obtain ⟨e, hreaches, -⟩ := reaches_splitInOrder align hstep (Int64.le_iff_toInt_le.mp hle)
  have hexact := exact_sums_iff align hstep hle
  dsimp only at hexact
  rw [split_eq direction align hpos hle, ← hexact]
  have hcapacity := capacity_neg_iff hpos hle
  split
  · next hneg =>
    refine iff_of_false (fun h => ?_) fun h => ?_
    · obtain ⟨_, hnone, _⟩ := h
      cases hnone
    · have := hcapacity.mp hneg
      omega
  · next hok =>
    constructor
    · rintro ⟨windows, hsome, htiles⟩
      obtain rfl := some.inj hsome
      refine ⟨fun hall => hok (hcapacity.mpr (.inl hall)), ?_⟩
      have hsums := htiles.exact_sums
      rwa [inOrder_split] at hsums
    · rintro ⟨-, hsums⟩
      refine ⟨_, rfl, ?_, ?_, ?_⟩
      · rw [inOrder_split]
        exact ⟨e, hreaches⟩
      · rintro rfl
        rw [inOrder_split]
        exact aligned_splitInOrder hstep hle
      · rwa [inOrder_split]

theorem tilesRange_aligned :
    ∃ windows, splitQueryRangeWindowsWithOptions (-5) 17 10 "backward" true = some windows ∧
      TilesRange (-5) 17 10 "backward" true windows :=
  (tilesRange_iff "backward" true (by decide) (by decide) (by decide)).mpr
    ⟨by decide, by decide⟩

theorem not_tilesRange_longest :
    (0 : Int64) ≤ Int64.maxValue ∧
      Int64.maxValue.toInt - (0 : Int64).toInt < 2 ^ 63 ∧ (0 : Int64) < 1 ∧
      ¬ ∃ windows, splitQueryRangeWindowsWithOptions 0 Int64.maxValue 1 "forward" false =
        some windows ∧ TilesRange 0 Int64.maxValue 1 "forward" false windows := by
  have hpanic : splitQueryRangeWindowsWithOptions 0 Int64.maxValue 1 "forward" false = none := by
    rw [split_eq _ _ (by decide) (by decide), if_pos (by decide)]
  refine ⟨by decide, by decide, by decide, ?_⟩
  rw [hpanic]
  rintro ⟨_, hnone, _⟩
  cases hnone

theorem Reaches.newest_iff {e : Int} (h : Reaches a endNs e windows) (hle : a ≤ endNs.toInt) :
    (∃ newest older, some windows.reverse = some (newest :: older) ∧ newest.endNs = endNs) ↔
      e = endNs.toInt := by
  obtain rfl | ⟨init, last, rfl⟩ := eq_nil_or_concat windows
  · -- there is a window
    have hstart : a = e + 1 := h.tiles
    have hfull := h.full (by omega)
    cases hfull
  · have htiles := h.tiles
    rw [concat_eq_append, map_append, map_singleton] at htiles
    have hend : last.endNs.toInt = e := htiles.of_snoc.1
    rw [concat_eq_append, reverse_append, reverse_singleton, singleton_append,
      ← hend, Int64.toInt_inj]
    constructor
    · rintro ⟨newest, older, hsome, hnewest⟩
      obtain ⟨rfl, -⟩ := cons.inj (some.inj hsome)
      exact hnewest
    · exact fun hnewest => ⟨last, init.reverse, rfl, hnewest⟩

/-- Without `forward` the newest window comes first exactly if the range needs no more windows
than are made, counted from the start or from the multiple of the interval before it, and its
length does not wrap to a capacity that `make` refuses. -/
theorem newest_first_iff {startNs endNs interval : Int64} {direction : String} (align : Bool)
    (hle : startNs ≤ endNs) (hpos : 0 < interval) (hdirection : direction ≠ "forward") :
    (∃ newest older, splitQueryRangeWindowsWithOptions startNs endNs interval direction align =
        some (newest :: older) ∧ newest.endNs = endNs) ↔
      (endNs.toInt - startNs.toInt + if align then startNs.toInt % interval.toInt else 0) /
          interval.toInt < maxQueryRangeWindows ∧
        (endNs.toInt - startNs.toInt < 2 ^ 63 ∨
          2 ^ 64 - (endNs.toInt - startNs.toInt) < 2 * interval.toInt) := by
  have hstep := pos_of_pos hpos
  have hle' := Int64.le_iff_toInt_le.mp hle
  obtain ⟨e, hreaches, hreach⟩ := reaches_splitInOrder align hstep hle'
  have hcapacity := capacity_neg_iff hpos hle
  rw [split_eq direction align hpos hle, if_neg hdirection]
  split
  · next hneg =>
    refine iff_of_false (fun h => ?_) fun h => ?_
    · obtain ⟨_, _, hnone, _⟩ := h
      cases hnone
    · obtain ⟨hall, hone⟩ | hwraps := hcapacity.mp hneg
      · have hcount := h.1
        rw [hone, Int.ediv_one, Int.emod_one] at hcount
        have hmax : (maxQueryRangeWindows : Int) = 4096 := rfl
        split at hcount <;> omega
      · omega
  · next hok =>
    have hwraps := not_or.mp (mt hcapacity.mpr hok)
    rw [← hreach, and_iff_left (by omega)]
    exact hreaches.newest_iff hle'

theorem newest_first_aligned :
    ∃ newest older, splitQueryRangeWindowsWithOptions (-5) 17 10 "backward" true =
      some (newest :: older) ∧ newest.endNs = 17 :=
  (newest_first_iff true (by decide) (by decide) (by decide)).mpr ⟨by decide, by decide⟩

theorem not_newest_first :
    ¬ ∃ newest older, splitQueryRangeWindowsWithOptions 0 4096 1 "backward" false =
      some (newest :: older) ∧ newest.endNs = 4096 := by
  have hle : (0 : Int64).toInt ≤ (4096 : Int64).toInt := by decide
  obtain ⟨e, hreaches, hreach⟩ := reaches_splitInOrder false (by decide : 0 < (1 : Int64).toInt) hle
  rw [split_eq _ _ (by decide) (by decide), if_neg (by decide), if_neg (by decide),
    hreaches.newest_iff hle, hreach]
  decide

end Window

end LokiVlProxy.Proxy
