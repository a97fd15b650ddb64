/-
  Foundation/OrderedParts.lean --- an ordered list read part by part.

  A stable sort commutes with restriction: sorting what satisfies a predicate is
  restricting what is sorted (`filter_insertionSort`).
-/
import Mathlib.Data.List.Sort
import Mathlib.Algebra.Ring.Nat

namespace LokiVlProxy.Foundation

open List

/-! ## Searching

In a list in which a predicate stays true once it is true, `sort.Search` finds the first place
where it holds, which separates the members that do not satisfy it from those that do.
-/

section Searching

variable {α : Type} {p : α → Bool} {l : List α}

/-- In a list ordered by a test, the first element that passes splits it into the two filters. -/
theorem split_findIdx (h : l.Pairwise fun a b => p a = true → p b = true) :
    (l.take (l.findIdx p) = l.filter fun a => !p a) ∧ l.drop (l.findIdx p) = l.filter p := by
  induction l with
  | nil => exact ⟨rfl, rfl⟩
  | cons a l ih =>
    obtain ⟨ha, hl⟩ := pairwise_cons.mp h
    rw [findIdx_cons, filter_cons, filter_cons]
    cases hpa : p a with
    | true =>
      have hall : ∀ b ∈ l, p b = true := fun b hb => ha b hb hpa
      simpa [filter_eq_self.mpr hall] using hall
    | false => simp [ih hl]

end Searching

/-! ## Sorting and restricting -/

section Sorting

variable {α : Type} {r : α → α → Prop} [DecidableRel r]

theorem orderedInsert_of_forall_rel {a : α} {l : List α} (h : ∀ b ∈ l, r a b) :
    l.orderedInsert r a = a :: l := by
  cases l with
  | nil => rfl
  | cons b l => exact orderedInsert_cons_of_le r l (h b (by simp))

theorem filter_orderedInsert [IsTrans α r] (p : α → Bool) (a : α) {l : List α}
    (hl : l.Pairwise r) :
    (l.orderedInsert r a).filter p =
      if p a then (l.filter p).orderedInsert r a else l.filter p := by
  induction l with
  | nil => simp [filter_cons]
  | cons b l ih =>
    obtain ⟨hb, hl'⟩ := pairwise_cons.mp hl
    by_cases hab : r a b
    · -- `a` goes in front of the whole list, so in front of what is left of it
      have hall : ∀ c ∈ (b :: l).filter p, r a c := by
        intro c hc
        rcases mem_cons.mp (mem_of_mem_filter hc) with rfl | hc'
        · exact hab
        · exact IsTrans.trans a b c hab (hb c hc')
      rw [orderedInsert_cons_of_le r l hab, filter_cons,
        orderedInsert_of_forall_rel hall]
    · rw [orderedInsert_of_not_le r l hab, filter_cons, filter_cons, ih hl']
      cases p b with
      | true =>
        cases p a with
        | true => simp [orderedInsert_of_not_le r _ hab]
        | false => simp
      | false => simp

/-- Filtering and sorting commute. -/
theorem filter_insertionSort [IsTrans α r] [Std.Total r] (p : α → Bool) (l : List α) :
    (l.insertionSort r).filter p = (l.filter p).insertionSort r := by
  induction l with
  | nil => rfl
  | cons a l ih =>
    rw [insertionSort_cons, filter_orderedInsert p a (pairwise_insertionSort r l), ih,
      filter_cons]
    split <;> rfl

end Sorting

/-! ## Parts of an ordered list -/

section Parts

variable {α : Type} {r : α → α → Prop} {l : List α}

theorem eq_filter_append_filter_not (hl : l.Pairwise r) {p : α → Bool}
    (hp : ∀ a ∈ l, ∀ b ∈ l, r a b → p b = true → p a = true) :
    l = l.filter p ++ l.filter fun a => !p a := by
  induction l with
  | nil => rfl
  | cons a l ih =>
    obtain ⟨ha, hl'⟩ := pairwise_cons.mp hl
    have ih' := ih hl' fun x hx y hy =>
      hp x (mem_cons_of_mem _ hx) y (mem_cons_of_mem _ hy)
    cases hpa : p a with
    | true => simpa [filter_cons, hpa] using ih'
    | false =>
      -- then nothing after `a` is in the part
      have hnone : l.filter p = [] := by
        rw [filter_eq_nil_iff]
        intro b hb hpb
        have := hp a (by simp) b (mem_cons_of_mem _ hb) (ha b hb) hpb
        rw [hpa] at this
        cases this
      rw [hnone, nil_append] at ih'
      simp [hpa, hnone, ← ih']

/-- An ordered list is the concatenation of its parts, when every element is in some part
and no element of a later part comes before one of an earlier part. -/
theorem eq_flatMap_filter [Std.Refl r] (hl : l.Pairwise r) {parts : List (α → Bool)}
    (horder : parts.Pairwise fun p q => ∀ a b, q a = true → p b = true → ¬ r a b)
    (hcover : ∀ a ∈ l, ∃ p ∈ parts, p a = true) :
    l = parts.flatMap fun p => l.filter p := by
  induction parts generalizing l with
  | nil =>
    cases l with
    | nil => rfl
    | cons a l =>
      obtain ⟨p, hp, -⟩ := hcover a (by simp)
      cases hp
  | cons p parts ih =>
    obtain ⟨hfirst, hrest⟩ := pairwise_cons.mp horder
    have hsplit : l = l.filter p ++ l.filter fun a => !p a := by
      refine eq_filter_append_filter_not hl fun a ha b _ hab hpb => ?_
      obtain ⟨q, hq, hqa⟩ := hcover a ha
      rcases mem_cons.mp hq with rfl | hq
      · exact hqa
      · exact absurd hab (hfirst q hq a b hqa hpb)
    have htail := ih (l := l.filter fun a => !p a) (hl.sublist filter_sublist) hrest (by
      intro a ha
      obtain ⟨hmem, hnot⟩ := mem_filter.mp ha
      obtain ⟨q, hq, hqa⟩ := hcover a hmem
      rcases mem_cons.mp hq with rfl | hq
      · simp [hqa] at hnot
      · exact ⟨q, hq, hqa⟩)
    rw [flatMap_cons]
    conv_lhs => rw [hsplit, htail]
    congr 1
    refine flatMap_congr fun q hq => ?_
    rw [filter_filter]
    refine filter_congr fun a _ => ?_
    -- an element of a later part is not in the first
    cases hqa : q a with
    | false => rfl
    | true =>
      cases hpa : p a with
      | false => rfl
      | true => exact absurd (Std.Refl.refl a) (hfirst q hq a a hqa hpa)

end Parts

/-! ## Tilings of an integer range -/

/-- The intervals, each from its first to its last member, follow one another without gap
from `a` to `b`. -/
def Tiles : Int → Int → List (Int × Int) → Prop
  | a, b, [] => a = b + 1
  | a, b, t :: ts => t.1 = a ∧ a ≤ t.2 ∧ Tiles (t.2 + 1) b ts

namespace Tiles

variable {a b c : Int} {ts ts' : List (Int × Int)}

/-- Adjacent runs of tiles make one run. -/
theorem append (h : Tiles a b ts) (h' : Tiles (b + 1) c ts') : Tiles a c (ts ++ ts') := by
  induction ts generalizing a with
  | nil =>
    obtain rfl : a = b + 1 := h
    exact h'
  | cons t ts ih => exact ⟨h.1, h.2.1, ih h.2.2⟩

theorem snoc (h : Tiles a (b - 1) ts) (hbc : b ≤ c) : Tiles a c (ts ++ [(b, c)]) := by
  refine h.append ⟨?_, ?_, rfl⟩ <;> simp only <;> omega

variable {t : Int × Int}

theorem of_snoc (h : Tiles a b (ts ++ [t])) : t.2 = b ∧ t.1 ≤ t.2 ∧ Tiles a (t.1 - 1) ts := by
  induction ts generalizing a with
  | nil =>
    obtain ⟨rfl, hle, hend⟩ := h
    have hb : t.2 + 1 = b + 1 := hend
    refine ⟨by omega, hle, ?_⟩
    simp [Tiles]
  | cons t' ts ih =>
    obtain ⟨hstart, hle, hrest⟩ := h
    obtain ⟨hend, hlast, htiles⟩ := ih hrest
    exact ⟨hend, hlast, hstart, hle, htiles⟩

theorem le_add_one (h : Tiles a b ts) : a ≤ b + 1 := by
  induction ts generalizing a with
  | nil => exact Int.le_of_eq h
  | cons t ts ih =>
    have := ih h.2.2
    have := h.2.1
    omega

/-- A tile lies within the range. -/
theorem bounds (h : Tiles a b ts) (ht : t ∈ ts) : a ≤ t.1 ∧ t.1 ≤ t.2 ∧ t.2 ≤ b := by
  induction ts generalizing a with
  | nil => cases ht
  | cons t' ts ih =>
    obtain ⟨hstart, hle, hrest⟩ := h
    have hlast := hrest.le_add_one
    rcases mem_cons.mp ht with rfl | ht
    · omega
    · have := ih hrest ht
      omega

/-- The tiles stand in order, and no two overlap. -/
theorem pairwise (h : Tiles a b ts) : ts.Pairwise fun t t' => t.2 < t'.1 := by
  induction ts generalizing a with
  | nil => exact .nil
  | cons t ts ih =>
    refine .cons (fun t' ht' => ?_) (ih h.2.2)
    have := (h.2.2.bounds ht').1
    omega

/-- Each point of the range is in a tile. -/
theorem cover (h : Tiles a b ts) {x : Int} (ha : a ≤ x) (hb : x ≤ b) :
    ∃ t ∈ ts, t.1 ≤ x ∧ x ≤ t.2 := by
  induction ts generalizing a with
  | nil =>
    have : a = b + 1 := h
    omega
  | cons t ts ih =>
    obtain ⟨hstart, hle, hrest⟩ := h
    by_cases hx : x ≤ t.2
    · exact ⟨t, by simp, by omega, hx⟩
    · obtain ⟨t', ht', hin⟩ := ih hrest (by omega)
      exact ⟨t', mem_cons_of_mem _ ht', hin⟩

theorem nodup (h : Tiles a b ts) : ts.Nodup := by
  induction ts generalizing a with
  | nil => exact .nil
  | cons t ts ih =>
    refine nodup_cons.mpr ⟨fun hmem => ?_, ih h.2.2⟩
    have := (h.2.2.bounds hmem).1
    have := h.1
    have := h.2.1
    omega

end Tiles

section Keyed

variable {α : Type} {key : α → Int} {l : List α} {a b : Int} {ts : List (Int × Int)}

/-- The part of a list whose keys lie in an interval. -/
def within (key : α → Int) (t : Int × Int) (x : α) : Bool := t.1 ≤ key x && key x ≤ t.2

theorem within_iff {t : Int × Int} {x : α} :
    within key t x = true ↔ t.1 ≤ key x ∧ key x ≤ t.2 := by
  simp [within]

/-- An ordered list is the concatenation of its parts in the tiles. -/
theorem eq_flatMap_tiles (hl : l.Pairwise fun x y => key x ≤ key y)
    (hin : ∀ x ∈ l, a ≤ key x ∧ key x ≤ b) (ht : Tiles a b ts) :
    l = ts.flatMap fun t => l.filter (within key t) := by
  have : Std.Refl fun x y : α => key x ≤ key y := ⟨fun _ => Int.le_refl _⟩
  have hparts : l = (ts.map (within key)).flatMap fun p => l.filter p := by
    refine eq_flatMap_filter hl ?_ fun x hx => ?_
    · refine pairwise_map.mpr (ht.pairwise.imp fun {t t'} hlt x y hx hy => ?_)
      have := within_iff.mp hx
      have := within_iff.mp hy
      omega
    · obtain ⟨t, htmem, hwithin⟩ := ht.cover (hin x hx).1 (hin x hx).2
      exact ⟨within key t, mem_map_of_mem htmem, within_iff.mpr hwithin⟩
  rwa [flatMap_map] at hparts

/-- The same for a list in descending order and the tiles from the last to the first. -/
theorem eq_flatMap_tiles_reverse (hl : l.Pairwise fun x y => key y ≤ key x)
    (hin : ∀ x ∈ l, a ≤ key x ∧ key x ≤ b) (ht : Tiles a b ts) :
    l = ts.reverse.flatMap fun t => l.filter (within key t) := by
  have h := eq_flatMap_tiles (pairwise_reverse.mpr hl) (fun x hx => hin x (mem_reverse.mp hx)) ht
  simpa only [reverse_reverse, reverse_flatMap, filter_reverse, Function.comp_def] using
    congrArg reverse h

end Keyed

/-! ## A budget along a list -/

section Budget

variable {α β : Type} {size : α → Nat} {P Q : Nat → α → Prop}

/-- `P` holds for each member and the budget that the members before it have left. -/
def Along (size : α → Nat) (P : Nat → α → Prop) : Nat → List α → Prop
  | _, [] => True
  | n, x :: xs => P n x ∧ Along size P (n - size x) xs

namespace Along

instance decidable [∀ n x, Decidable (P n x)] : ∀ n xs, Decidable (Along size P n xs)
  | _, [] => .isTrue trivial
  | n, x :: xs =>
      have := decidable (n - size x) xs
      inferInstanceAs (Decidable (P n x ∧ Along size P (n - size x) xs))

variable {n : Nat} {xs : List α}

theorem of_forall (h : ∀ m ≤ n, ∀ x ∈ xs, P m x) : Along size P n xs := by
  induction xs generalizing n with
  | nil => trivial
  | cons x xs ih =>
    refine ⟨h n (Nat.le_refl n) x (by simp), ih fun m hm y hy => ?_⟩
    exact h m (Nat.le_trans hm (Nat.sub_le n (size x))) y (mem_cons_of_mem x hy)

theorem mono (h : Along size P n xs) (hPQ : ∀ m ≤ n, ∀ x ∈ xs, P m x → Q m x) :
    Along size Q n xs := by
  induction xs generalizing n with
  | nil => trivial
  | cons x xs ih =>
    refine ⟨hPQ n (Nat.le_refl n) x (by simp) h.1, ih h.2 fun m hm y hy => ?_⟩
    exact hPQ m (Nat.le_trans hm (Nat.sub_le n (size x))) y (mem_cons_of_mem x hy)

theorem and (h : Along size P n xs) (h' : Along size Q n xs) :
    Along size (fun m x => P m x ∧ Q m x) n xs := by
  induction xs generalizing n with
  | nil => trivial
  | cons x xs ih => exact ⟨⟨h.1, h'.1⟩, ih h.2 h'.2⟩

theorem left {ys : List α} (h : Along size P n (xs ++ ys)) : Along size P n xs := by
  induction xs generalizing n with
  | nil => trivial
  | cons x xs ih => exact ⟨h.1, ih h.2⟩

theorem right {g : α → List β} {ys : List α} (h : Along (fun x => (g x).length) P n (xs ++ ys)) :
    Along (fun x => (g x).length) P (n - (xs.flatMap g).length) ys := by
  induction xs generalizing n with
  | nil => exact h
  | cons x xs ih =>
    have hrest := ih h.2
    rwa [Nat.sub_sub, ← length_append, ← flatMap_cons] at hrest

end Along

/-- Two concatenations start alike where each part starts alike, as far as it is reached. -/
theorem take_flatMap_congr {f g : α → List β} {n : Nat} {xs : List α}
    (h : Along (fun x => (g x).length) (fun m x => (f x).take m = (g x).take m) n xs) :
    (xs.flatMap f).take n = (xs.flatMap g).take n := by
  induction xs generalizing n with
  | nil => rfl
  | cons x xs ih =>
    have hleft : n - (f x).length = n - (g x).length := by
      have hlen := congrArg List.length h.1
      rw [length_take, length_take] at hlen
      omega
    rw [flatMap_cons, flatMap_cons, take_append, take_append, h.1, hleft,
      ih h.2]

end Budget

/-! ## Concatenations with missing parts -/

section Missing

variable {α : Type}

/-- The parts that are there, one after the other. -/
def present (parts : List (List α × Bool)) : List α := (parts.filter Prod.snd).flatMap Prod.fst

@[simp] theorem present_nil : present ([] : List (List α × Bool)) = [] := rfl

@[simp] theorem present_cons_true (xs : List α) (parts : List (List α × Bool)) :
    present ((xs, true) :: parts) = xs ++ present parts := by
  simp [present]

@[simp] theorem present_cons_false (xs : List α) (parts : List (List α × Bool)) :
    present ((xs, false) :: parts) = present parts := by
  simp [present]

theorem present_flatMap {β : Type} (f : α → List β) (parts : List (List α × Bool)) :
    present (parts.map fun part => (part.1.flatMap f, part.2)) = (present parts).flatMap f := by
  induction parts with
  | nil => rfl
  | cons part parts ih =>
    obtain ⟨xs, there⟩ := part
    cases there with
    | true | false => simp [ih]

variable {parts : List (List α × Bool)}

theorem exists_part_of_mem_present {x : α} (h : x ∈ present parts) :
    ∃ part ∈ parts, x ∈ part.1 := by
  obtain ⟨part, hpart, hx⟩ := mem_flatMap.mp h
  exact ⟨part, (mem_filter.mp hpart).1, hx⟩

/-- Within the first `n` elements nothing follows a missing part: the part is empty, or
nothing after it is there. -/
def NoHole : Nat → List (List α × Bool) → Prop
  | _, [] => True
  | n, (xs, true) :: parts => NoHole (n - xs.length) parts
  | n, (xs, false) :: parts => n = 0 ∨ (xs = [] ∧ NoHole n parts) ∨ present parts = []

/-- What is there of disjoint parts, cut at a length, is a first segment of the whole
exactly when there is no hole in it. -/
theorem take_present_prefix_iff (hdisj : (parts.map Prod.fst).Pairwise List.Disjoint) (n : Nat) :
    (present parts).take n <+: (parts.flatMap Prod.fst).take n ↔ NoHole n parts := by
  induction parts generalizing n with
  | nil => simp [NoHole]
  | cons part parts ih =>
    obtain ⟨xs, there⟩ := part
    obtain ⟨hfirst, hrest⟩ := pairwise_cons.mp hdisj
    cases there with
    | true =>
      rw [present_cons_true, flatMap_cons, take_append, take_append,
        prefix_append_right_inj, ih hrest, NoHole]
    | false =>
      rw [present_cons_false, flatMap_cons, NoHole]
      constructor
      · intro hpre
        rcases Nat.eq_zero_or_pos n with hzero | hpos
        · exact .inl hzero
        · refine .inr ?_
          cases xs with
          | nil => exact .inl ⟨rfl, (ih hrest n).mp hpre⟩
          | cons x xs =>
            -- the whole begins with `x`, which no later part has
            refine .inr ?_
            cases hthere : present parts with
            | nil => rfl
            | cons y ys =>
              obtain ⟨m, rfl⟩ := Nat.exists_eq_succ_of_ne_zero (Nat.ne_of_gt hpos)
              rw [hthere, take_succ_cons, cons_append, take_succ_cons,
                cons_prefix_cons] at hpre
              obtain ⟨part, hpart, hy⟩ :=
                exists_part_of_mem_present (hthere ▸ mem_cons_self : y ∈ present parts)
              have hapart := hfirst part.1 (mem_map_of_mem hpart)
              exact absurd (hpre.1 ▸ hy) (hapart mem_cons_self)
      · rintro (rfl | ⟨rfl, hnone⟩ | hnone)
        · simp
        · exact (ih hrest n).mpr hnone
        · rw [hnone, take_nil]
          exact nil_prefix

end Missing

variable {α β : Type}

/-! ## Parts cut short -/

section Short

/-- A part cut at `p`, with some of what follows the part behind it: the first `n` members are
those of the whole when the cut leaves what is needed of the part, and the rest agrees. -/
theorem take_append_short_iff {s xs ys : List β} {p n : Nat} (hnodup : (s ++ ys).Nodup)
    (hsub : xs ⊆ ys) :
    (s.take p ++ xs).take n = (s ++ ys).take n ↔
      min s.length n ≤ p ∧ xs.take (n - s.length) = ys.take (n - s.length) := by
  rcases Nat.lt_or_ge p s.length with hcut | hwhole
  · rcases Nat.lt_or_ge p n with hneeded | henough
    · -- the member at the cut is needed, and what stands there instead comes later
      refine iff_of_false (fun heq => ?_) fun h => by omega
      have hat := congrArg (fun l => l[p]?) heq
      simp only [getElem?_take_of_lt hneeded] at hat
      rw [getElem?_append_left hcut, getElem?_append_right
        (by rw [length_take]; omega), getElem?_eq_getElem hcut] at hat
      have hlater : s[p] ∈ ys := hsub (mem_of_getElem? hat)
      exact disjoint_of_nodup_append hnodup (getElem_mem hcut) hlater
    · have hnone : n - s.length = 0 := by omega
      have hlen : n ≤ (s.take p).length := by rw [length_take]; omega
      rw [take_append_of_le_length hlen, take_append_of_le_length (by omega),
        take_take, Nat.min_eq_left henough, hnone]
      simp only [take_zero, and_true, true_iff]
      omega
  · rw [take_of_length_le hwhole, take_append, take_append,
      append_cancel_left_eq]
    simp only [iff_and_self]
    intro _
    omega

variable {f : α → List β} {p : α → Nat} {l : List α} {n : Nat}

/-- A concatenation of cut parts starts as the whole one exactly when no reached part is cut short
and what follows agrees. -/
theorem take_flatMap_short_iff {xs ys : List β} (hnodup : (l.flatMap f ++ ys).Nodup)
    (hsub : xs ⊆ ys) :
    ((l.flatMap fun a => (f a).take (p a)) ++ xs).take n = (l.flatMap f ++ ys).take n ↔
      Along (fun a => (f a).length) (fun m a => min (f a).length m ≤ p a) n l ∧
        xs.take (n - (l.flatMap f).length) = ys.take (n - (l.flatMap f).length) := by
  induction l generalizing n with
  | nil => simp [Along]
  | cons a l ih =>
    rw [flatMap_cons, append_assoc] at hnodup
    have hrest : ((l.flatMap fun a => (f a).take (p a)) ++ xs) ⊆ l.flatMap f ++ ys := by
      intro b hb
      rcases mem_append.mp hb with hb | hb
      · obtain ⟨a', ha', hb'⟩ := mem_flatMap.mp hb
        exact mem_append_left _ (mem_flatMap.mpr ⟨a', ha', mem_of_mem_take hb'⟩)
      · exact mem_append_right _ (hsub hb)
    rw [flatMap_cons, flatMap_cons, append_assoc, append_assoc,
      take_append_short_iff hnodup hrest, ih (nodup_append.mp hnodup).2.1, Along, and_assoc,
      length_append, Nat.sub_sub]

theorem flatMap_short_eq
    (h : Along (fun a => (f a).length) (fun m a => min (f a).length m ≤ p a) n l)
    (hlt : (l.flatMap f).length < n) : (l.flatMap fun a => (f a).take (p a)) = l.flatMap f := by
  induction l generalizing n with
  | nil => rfl
  | cons a l ih =>
    rw [flatMap_cons, length_append] at hlt
    have hwhole : (f a).length ≤ p a := by
      have := h.1
      omega
    rw [flatMap_cons, flatMap_cons, take_of_length_le hwhole,
      ih h.2 (Nat.lt_sub_iff_add_lt'.mpr hlt)]

end Short

/-! ## Batches

The parts of a batch are all asked for what is missing when the batch begins; each part gives a
first piece of itself, and the reading stops when nothing is missing any more. -/

/-- Reading `missing` members of the parts, `parallel` parts at a time.  `read a asked` is what
part `a` gives when it is asked for `asked` members. -/
def batchRead (parallel : Nat) (read : α → Nat → List β) : Nat → Nat → List α → List β
  | 0, _, _ => []
  | fuel + 1, missing, parts =>
      if parts = [] ∨ missing = 0 then []
      else
        let batch := (parts.take parallel).flatMap fun a => read a missing
        batch ++ batchRead parallel read fuel (missing - batch.length) (parts.drop parallel)

/-- `P asked left a` holds for each part, with what was missing when its batch began and what
the parts before it leave missing. -/
def AlongBatches (parallel : Nat) (size : α → Nat) (P : Nat → Nat → α → Prop) :
    Nat → Nat → List α → Prop
  | 0, _, _ => True
  | fuel + 1, missing, parts =>
      Along size (P missing) missing (parts.take parallel) ∧
        AlongBatches parallel size P fuel (missing - ((parts.take parallel).map size).sum)
          (parts.drop parallel)

instance AlongBatches.decidable {parallel : Nat} {size : α → Nat} {P : Nat → Nat → α → Prop}
    [∀ asked left a, Decidable (P asked left a)] :
    ∀ fuel missing parts, Decidable (AlongBatches parallel size P fuel missing parts)
  | 0, _, _ => .isTrue trivial
  | fuel + 1, missing, parts =>
      have := @decidable parallel size P _ fuel
        (missing - ((parts.take parallel).map size).sum) (parts.drop parallel)
      inferInstanceAs (Decidable (_ ∧ _))

section Reading

variable {parallel : Nat} {f : α → List β} {cut : α → Nat → Nat}

/-- Each part gave what was still needed of it. -/
abbrev GaveEnough (parallel : Nat) (f : α → List β) (cut : α → Nat → Nat) :
    Nat → Nat → List α → Prop :=
  AlongBatches parallel (fun a => (f a).length) fun asked left a =>
    min (f a).length left ≤ cut a asked

theorem gaveEnough_zero (fuel : Nat) (parts : List α) :
    GaveEnough parallel f cut fuel 0 parts := by
  induction fuel generalizing parts with
  | zero => trivial
  | succ fuel ih =>
    refine ⟨Along.of_forall fun m hm a _ => by omega, ?_⟩
    rw [Nat.zero_sub]
    exact ih _

theorem gaveEnough_nil (fuel missing : Nat) :
    GaveEnough parallel f cut fuel missing [] := by
  induction fuel generalizing missing with
  | zero => trivial
  | succ fuel ih =>
    rw [GaveEnough, AlongBatches, take_nil, drop_nil]
    exact ⟨trivial, ih _⟩

/-- Reading in batches takes nothing that the parts do not hold, and keeps their order. -/
theorem batchRead_sublist (fuel missing : Nat) (parts : List α) :
    (batchRead parallel (fun a n => (f a).take (cut a n)) fuel missing parts).Sublist
      (parts.flatMap f) := by
  induction fuel generalizing missing parts with
  | zero => exact nil_sublist _
  | succ fuel ih =>
    rw [batchRead]
    split
    · exact nil_sublist _
    · conv_rhs => rw [← take_append_drop parallel parts, flatMap_append]
      refine List.Sublist.append ?_ (ih _ _)
      generalize parts.take parallel = batch
      induction batch with
      | nil => exact List.Sublist.refl _
      | cons a batch ihb => exact (take_sublist _ _).append ihb

/-- What is read is a first segment of the whole, as far as it was asked for, exactly when
each part gave what was still needed of it. -/
theorem take_batchRead_iff (hpar : 0 < parallel) {fuel missing : Nat} {parts : List α}
    (hfuel : parts.length ≤ fuel) (hnodup : (parts.flatMap f).Nodup) :
    (batchRead parallel (fun a n => (f a).take (cut a n)) fuel missing parts).take missing =
        (parts.flatMap f).take missing ↔
      GaveEnough parallel f cut fuel missing parts := by
  induction fuel generalizing missing parts with
  | zero =>
    obtain rfl : parts = [] := length_eq_zero_iff.mp (Nat.le_zero.mp hfuel)
    simp [batchRead, GaveEnough, AlongBatches]
  | succ fuel ih =>
    rw [batchRead]
    split
    · rename_i hstop
      rcases hstop with rfl | rfl
      · exact iff_of_true rfl (gaveEnough_nil _ _)
      · exact iff_of_true rfl (gaveEnough_zero _ _)
    · have hparts : parts.flatMap f = (parts.take parallel).flatMap f ++
          (parts.drop parallel).flatMap f := by
        rw [← flatMap_append, take_append_drop]
      have hdrop : (parts.drop parallel).length ≤ fuel := by
        rw [length_drop]
        omega
      rw [hparts] at hnodup ⊢
      simp only
      rw [take_flatMap_short_iff hnodup (batchRead_sublist _ _ _).subset, GaveEnough, AlongBatches,
        length_flatMap]
      refine and_congr_right fun hbatch => ?_
      -- what the next batches are asked for is what is missing, unless nothing is
      rcases Nat.lt_or_ge ((parts.take parallel).map fun a => (f a).length).sum missing
        with hlt | hge
      · rw [flatMap_short_eq hbatch (by rwa [length_flatMap]), length_flatMap]
        exact ih hdrop (nodup_append.mp hnodup).2.1
      · rw [Nat.sub_eq_zero_of_le hge]
        exact iff_of_true rfl (gaveEnough_zero _ _)

end Reading

end LokiVlProxy.Foundation
