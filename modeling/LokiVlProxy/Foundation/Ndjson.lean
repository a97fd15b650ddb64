/-
  Foundation/Ndjson.lean --- bodies of one line for each record, and how readers deliver them.

  A body is read line by line: it is cut at the newlines, carriage returns at the end of a line
  go, and empty lines do not count.
-/
import LokiVlProxy.Foundation.Text

namespace LokiVlProxy.Foundation

open List

/-- `bytes.TrimRight(line, "\r")`. -/
def trimReturn (line : Text) : Text := line.rdropWhile fun c => c = '\r'

/-- The lines of a body. -/
def bodyLines (body : Text) : List Text :=
  ((body.splitOn '\n').map trimReturn).filter fun line => !line.isEmpty

/-- A record as a line of its own: no newline in it, no carriage return behind it, not blank. -/
def IsLine (line : Text) : Prop :=
  '\n' ∉ line ∧ line.getLast? ≠ some '\r' ∧ (trimSpace line).isEmpty = false
  deriving Decidable

variable (lines : List Text)

/-- Records, each with a newline behind it. -/
def ndjson : Text := lines.flatMap fun line => line ++ ['\n']

/-- `bytes.Join(lines, "\n")`. -/
def joinLines : Text := ['\n'].intercalate lines

theorem ndjson_append (a b : List Text) : ndjson (a ++ b) = ndjson a ++ ndjson b :=
  flatMap_append

theorem ndjson_eq_intercalate : ndjson lines = joinLines (lines ++ [[]]) := by
  cases lines with
  | nil => rfl
  | cons line lines =>
    rw [joinLines, intercalate_concat (cons_ne_nil _ _), ndjson]
    induction lines generalizing line with
    | nil => simp
    | cons next lines ih =>
      rw [flatMap_cons, ih, intercalate_cons_cons]
      simp

theorem IsLine.ne_nil {line : Text} (h : IsLine line) : line.isEmpty = false := by
  cases line with
  | nil => exact h.2.2
  | cons c line => rfl

theorem IsLine.trimReturn {line : Text} (h : IsLine line) : trimReturn line = line := by
  rw [Foundation.trimReturn, rdropWhile_eq_self_iff]
  intro hne
  have hlast := h.2.1
  rw [getLast?_eq_getLast_of_ne_nil hne] at hlast
  simpa using hlast

variable {lines : List Text}

theorem filter_map_trimReturn (h : ∀ line ∈ lines, IsLine line) :
    (lines.map trimReturn).filter (fun line => !line.isEmpty) = lines := by
  have hmap : lines.map trimReturn = lines := by
    rw [map_congr_left fun line hline => (h line hline).trimReturn, map_id']
  rw [hmap, filter_eq_self]
  intro line hline
  rw [(h line hline).ne_nil, Bool.not_false]

theorem splitOn_ndjson (h : ∀ line ∈ lines, IsLine line) :
    (ndjson lines).splitOn '\n' = lines ++ [[]] := by
  rw [ndjson_eq_intercalate]
  refine splitOn_intercalate '\n' ?_ (by simp)
  intro line hline
  rcases mem_append.mp hline with hline | hline
  · exact (h line hline).1
  · rw [mem_singleton.mp hline]
    exact not_mem_nil

/-- The lines of a body are read back from it. -/
theorem bodyLines_ndjson (h : ∀ line ∈ lines, IsLine line) : bodyLines (ndjson lines) = lines := by
  rw [bodyLines, splitOn_ndjson h, map_append, filter_append, filter_map_trimReturn h]
  exact append_nil lines

/-- The last line of a body need not end in a newline. -/
theorem bodyLines_joinLines (h : ∀ line ∈ lines, IsLine line) :
    bodyLines (joinLines lines) = lines := by
  cases lines with
  | nil => rfl
  | cons line lines =>
    rw [bodyLines, joinLines,
      splitOn_intercalate '\n' (fun l hl => (h l hl).1) (cons_ne_nil _ _),
      filter_map_trimReturn h]

/-- A body determines its lines. -/
theorem joinLines_inj {a b : List Text} (ha : ∀ line ∈ a, IsLine line)
    (hb : ∀ line ∈ b, IsLine line) (h : joinLines a = joinLines b) : a = b := by
  rw [← bodyLines_joinLines ha, ← bodyLines_joinLines hb, h]

/-! ## Readers

A reader is called again and again with buffers of the caller's choosing until it says that
it is done. -/

/-- What one call puts into the buffer, and whether it said `io.EOF`. -/
structure ReadResult where
  bytes : List UInt8
  eof : Bool
  deriving DecidableEq, Repr

/-- A reader with states `σ`: what a call with a buffer of this size returns and leaves. -/
structure Reader (σ : Type) where
  read : σ → Nat → ReadResult × σ

namespace Reader

variable {σ : Type} (r : Reader σ) (sizes : Nat → Nat)

/-- The state before call `n`, counted from zero. -/
def stateAt (s : σ) : Nat → σ
  | 0 => s
  | n + 1 => (r.read (stateAt s n) (sizes n)).2

/-- What call `n` returns. -/
def result (s : σ) (n : Nat) : ReadResult := (r.read (r.stateAt sizes s n) (sizes n)).1

/-- What the first `n` calls deliver. -/
def delivered (s : σ) (n : Nat) : List UInt8 :=
  (List.range n).flatMap fun i => (r.result sizes s i).bytes

/-- The calls deliver this content, in order and once, and then the reader says it is done. -/
def Delivers (s : σ) (content : List UInt8) : Prop :=
  ∃ n, (∀ i < n, (r.result sizes s i).eof = false) ∧ (r.result sizes s n).eof = true ∧
    r.delivered sizes s (n + 1) = content

theorem delivered_succ (s : σ) (n : Nat) :
    r.delivered sizes s (n + 1) = r.delivered sizes s n ++ (r.result sizes s n).bytes := by
  simp only [delivered, range_succ, flatMap_append, flatMap_singleton]

theorem length_result_le {s : σ} {i n : Nat} (hi : i < n) :
    (r.result sizes s i).bytes.length ≤ (r.delivered sizes s n).length := by
  have hpart : (r.result sizes s i).bytes ∈
      (List.range n).map fun i => (r.result sizes s i).bytes :=
    mem_map_of_mem (mem_range.mpr hi)
  rw [delivered, flatMap_def]
  exact (sublist_flatten_of_mem hpart).length_le

end Reader

end LokiVlProxy.Foundation
