/-
  Proxy/ScanBudget.lean --- the sample slots that concurrent manual scans share.

  Source: internal/proxy/manual_scan_budget.go.

  The load and the compare-and-swap of a reservation are steps of their own.
-/
import LokiVlProxy.Foundation.Run
import Mathlib.Algebra.BigOperators.Ring.Finset
import Mathlib.Algebra.Order.BigOperators.Group.Finset

namespace LokiVlProxy.Proxy.ScanBudget

open Foundation Finset

def defaultManualScanSampleBudget : Int := 2000000

def manualScanReservationChunk : Int := 4096

/-- Between calls, or in the loop of `reserve` before its load or its swap. -/
inductive Phase where
  | idle
  | load
  | swap (left : Int)
  deriving DecidableEq, Repr

/-- `manualScanReservation`. -/
structure Scan where
  held : Int := 0
  used : Int := 0
  phase : Phase := .idle
  deriving DecidableEq, Repr

/-- The samples that `account` has let the scan keep. -/
def Scan.retained (scan : Scan) : Int := if scan.phase = .idle then scan.used else scan.used - 1

/-- A call of `account` or `release`, or the next step inside `reserve`. -/
inductive Action where
  | account
  | resume
  | release

/-- One step of a scan, and the slots that it leaves. -/
def Scan.next (remaining : Int) (scan : Scan) (action : Action) : Int × Scan :=
  match action, scan.phase with
  | .account, .idle =>
      let scan := { scan with used := scan.used + 1 }
      (remaining, if scan.used ≤ scan.held then scan else { scan with phase := .load })
  | .resume, .load =>
      if remaining < manualScanReservationChunk then
        (remaining, { scan with used := scan.used - 1, phase := .idle })
      else (remaining, { scan with phase := .swap remaining })
  | .resume, .swap left =>
      if remaining = left then
        (left - manualScanReservationChunk,
          { scan with held := scan.held + manualScanReservationChunk, phase := .idle })
      else (remaining, { scan with phase := .load })
  | .release, .idle => (if 0 < scan.held then remaining + scan.held else remaining, {})
  | _, _ => (remaining, scan)

structure Budget (ι : Type) where
  remaining : Int
  scans : ι → Scan

variable {ι : Type}

def newManualScanBudget (total : Int) : Budget ι :=
  ⟨if total ≤ 0 then defaultManualScanSampleBudget else total, fun _ => {}⟩

def Budget.step [DecidableEq ι] (b : Budget ι) (e : ι × Action) : Budget ι :=
  let next := (b.scans e.1).next b.remaining e.2
  ⟨next.1, Function.update b.scans e.1 next.2⟩

/-- What each scan keeps true of itself. -/
structure Scan.Ok (scan : Scan) : Prop where
  held_nonneg : 0 ≤ scan.held
  retained_le : scan.retained ≤ scan.held
  swap_le : ∀ left, scan.phase = .swap left → manualScanReservationChunk ≤ left

/-- An action moves between a scan and the budget and overdraws neither. -/
theorem Scan.Ok.next {scan : Scan} (h : scan.Ok) {remaining : Int} (hr : 0 ≤ remaining)
    (action : Action) :
    (scan.next remaining action).1 + (scan.next remaining action).2.held = remaining + scan.held ∧
      0 ≤ (scan.next remaining action).1 ∧ (scan.next remaining action).2.Ok := by
  obtain ⟨hheld, hused, hswap⟩ := h
  fun_cases Scan.next remaining scan action
  all_goals
    refine ⟨?_, ?_, ⟨?_, ?_, ?_⟩⟩
  all_goals grind [Scan.retained, manualScanReservationChunk]

variable [Fintype ι]

theorem sum_update [DecidableEq ι] (f : Scan → Int) (scans : ι → Scan) (i : ι) (scan : Scan) :
    ∑ j, f (Function.update scans i scan j) = ∑ j, f (scans j) - f (scans i) + f scan := by
  have hrest : ∑ j ∈ univ.erase i, f (Function.update scans i scan j) =
      ∑ j ∈ univ.erase i, f (scans j) :=
    sum_congr rfl fun j hj => by rw [Function.update_of_ne (ne_of_mem_erase hj)]
  rw [← add_sum_erase _ _ (mem_univ i), ← add_sum_erase _ (fun j => f (scans j)) (mem_univ i),
    hrest, Function.update_self]
  omega

/-- The slots that are left and those that scans hold are the total. -/
structure Budget.Conserved (total : Int) (b : Budget ι) : Prop where
  total_eq : b.remaining + ∑ i, (b.scans i).held = total
  remaining_nonneg : 0 ≤ b.remaining
  ok : ∀ i, (b.scans i).Ok

theorem conserved_newManualScanBudget (total : Int) :
    (newManualScanBudget total : Budget ι).Conserved
      (if total ≤ 0 then defaultManualScanSampleBudget else total) := by
  refine ⟨by simp [newManualScanBudget], ?_, fun _ => ⟨le_rfl, le_rfl, nofun⟩⟩
  simp only [newManualScanBudget, defaultManualScanSampleBudget]
  omega

variable [DecidableEq ι]

/-- Every step keeps the sum of what is left and what is held. -/
theorem Budget.Conserved.step {total : Int} {b : Budget ι} (h : b.Conserved total)
    (e : ι × Action) : (b.step e).Conserved total := by
  obtain ⟨hsum, hnonneg, hok⟩ := (h.ok e.1).next h.remaining_nonneg e.2
  refine ⟨?_, hnonneg, fun i => ?_⟩
  · have htotal := h.total_eq
    rw [Budget.step, sum_update Scan.held]
    dsimp only at *
    omega
  · by_cases hi : i = e.1
    · simpa only [hi, Budget.step, Function.update_self] using hok
    · simpa only [Budget.step, Function.update_of_ne hi] using h.ok i

/-- Over every interleaving nothing of the budget is lost or handed out twice, and a release
behind a release or a failed reservation returns what the scan holds once. -/
theorem manualScanBudget_conserved (total : Int) (es : List (ι × Action)) :
    let all := if total ≤ 0 then defaultManualScanSampleBudget else total
    let b := es.foldl Budget.step (newManualScanBudget total)
    b.remaining + ∑ i, (b.scans i).held = all ∧ 0 ≤ b.remaining ∧
      ∑ i, (b.scans i).retained ≤ all ∧
      ∀ i, (b.step (i, .release)).step (i, .release) = b.step (i, .release) ∧
        ((b.scans i).phase = .load → b.remaining < manualScanReservationChunk →
          ((b.step (i, .resume)).step (i, .release)).remaining =
            b.remaining + (b.scans i).held ∧
          (((b.step (i, .resume)).step (i, .release)).scans i).held = 0) := by
  intro all b
  have h : b.Conserved all :=
    run_invariant (fun _ e hb => hb.step e) (conserved_newManualScanBudget total) es
  have hretained : ∑ i, (b.scans i).retained ≤ ∑ i, (b.scans i).held :=
    sum_le_sum fun i _ => (h.ok i).retained_le
  have htotal := h.total_eq
  have hnonneg := h.remaining_nonneg
  refine ⟨htotal, hnonneg, by omega, fun i => ⟨?_, fun hphase hfew => ?_⟩⟩
  · cases hphase : (b.scans i).phase <;> simp [Budget.step, Scan.next, hphase]
  · have hheld := (h.ok i).held_nonneg
    simp only [Budget.step, Scan.next, hphase, if_pos hfew, Function.update_self]
    grind

end LokiVlProxy.Proxy.ScanBudget
