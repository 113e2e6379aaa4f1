import Mathlib.Data.List.Pairwise
import Mathlib.Data.List.Sort

/-!
# Rows in the order of several columns

A row is ordered by the tuple of its values in some columns, each of them ascending or
descending.  `before` is that order: the first column decides, and the next one where the
first is equal.  Where no two rows have the same tuple there is one way to sort them
(`sorted_eq`), turning every direction around turns the sorted list around
(`sorted_flip`), and the rows behind or in front of one row are what follows or precedes it
in the sorted list (`filter_after`, `filter_before`).
-/

namespace Hesape.Order

open List
open Bool

variable {V : Type} [LinearOrder V]

/-- The first tuple comes before the second; `true` is a descending column. -/
def before : List Bool → List V → List V → Bool
  | d :: ds, x :: xs, y :: ys =>
    (if d then decide (y < x) else decide (x < y)) || (decide (x = y) && before ds xs ys)
  | _, _, _ => false

theorem before_irrefl : ∀ (ds : List Bool) (xs : List V), before ds xs xs = false := by
  intro ds
  induction ds with
  | nil => intro xs; cases xs <;> rfl
  | cons d _ ih =>
    intro xs
    cases xs with
    | nil => rfl
    | cons => cases d <;> simp [before, ih]

theorem before_flip : ∀ (ds : List Bool) (xs ys : List V),
    before (ds.map (!·)) xs ys = before ds ys xs := by
  intro ds
  induction ds with
  | nil => intro xs ys; rcases xs with _ | ⟨x, xs⟩ <;> rcases ys with _ | ⟨y, ys⟩ <;> rfl
  | cons d _ ih =>
    intro xs ys
    rcases xs with _ | ⟨x, xs⟩
    · rcases ys with _ | ⟨y, ys⟩ <;> rfl
    · rcases ys with _ | ⟨y, ys⟩
      · rfl
      · cases d <;> simp [before, ih, eq_comm (a := x)]

theorem before_trans : ∀ {ds : List Bool} {xs ys zs : List V}, before ds xs ys →
    before ds ys zs → before ds xs zs := by
  intro ds
  induction ds with
  | nil => intro xs ys zs h; rcases xs with _ | ⟨x, xs⟩ <;> rcases ys with _ | ⟨y, ys⟩ <;> cases h
  | cons d _ ih =>
    intro xs ys zs hxy hyz
    rcases xs with _ | ⟨x, xs⟩
    · rcases ys with _ | ⟨y, ys⟩ <;> cases hxy
    rcases ys with _ | ⟨y, ys⟩
    · cases hxy
    rcases zs with _ | ⟨z, zs⟩
    · cases hyz
    simp only [before, or_eq_true, and_eq_true, decide_eq_true_eq] at hxy hyz ⊢
    rcases hxy with hxy | ⟨rfl, hxy⟩
    · rcases hyz with hyz | ⟨rfl, -⟩
      · left
        cases d with
        | false => simp only [false_eq_true, ↓reduceIte, decide_eq_true_eq] at *; exact hxy.trans hyz
        | true => simp only [↓reduceIte, decide_eq_true_eq] at *; exact hyz.trans hxy
      · exact .inl hxy
    · rcases hyz with hyz | ⟨rfl, hyz⟩
      · exact .inl hyz
      · exact .inr ⟨rfl, ih hxy hyz⟩

theorem before_asymm {ds : List Bool} {xs ys : List V} (h : before ds xs ys) :
    before ds ys xs = false := by
  rw [eq_false_iff]
  intro h'
  have := before_trans h h'
  rw [before_irrefl] at this
  cases this

/-- Two different tuples are in one order or the other. -/
theorem before_total : ∀ {ds : List Bool} {xs ys : List V}, xs.length = ds.length →
    ys.length = ds.length → xs ≠ ys → before ds xs ys ∨ before ds ys xs := by
  intro ds
  induction ds with
  | nil =>
    intro xs ys hx hy hne
    rw [length_eq_zero_iff.mp hx, length_eq_zero_iff.mp hy] at hne
    exact absurd rfl hne
  | cons d _ ih =>
    intro xs ys hx hy hne
    rcases xs with _ | ⟨x, xs⟩
    · cases hx
    rcases ys with _ | ⟨y, ys⟩
    · cases hy
    simp only [before, or_eq_true, and_eq_true, decide_eq_true_eq]
    rcases lt_trichotomy x y with h | rfl | h
    · cases d <;> simp [h, not_lt_of_gt h]
    · have hxs : xs ≠ ys := fun he => hne (by rw [he])
      rcases ih (by simpa using hx) (by simpa using hy) hxs with h | h
      · exact .inl (.inr ⟨rfl, h⟩)
      · exact .inr (.inr ⟨rfl, h⟩)
    · cases d <;> simp [h, not_lt_of_gt h]

section Rows

variable {R : Type} (ds : List Bool) (key : R → List V)

/-- The row may stand in front of the other. -/
def upTo (r s : R) : Prop := before ds (key s) (key r) = false

instance : DecidableRel (upTo ds key) := fun _ _ => inferInstanceAs (Decidable (_ = _))

/-- The rows in order. -/
def sorted (l : List R) : List R := l.insertionSort (upTo ds key)

/-- In order, no two rows alike. -/
abbrev Strict (m : List R) : Prop := m.Pairwise fun r s => before ds (key r) (key s) = true

variable {ds key} (hkey : ∀ r, (key r).length = ds.length)
include hkey

theorem upTo_trans {r s t : R} (h : upTo ds key r s) (h' : upTo ds key s t) : upTo ds key r t := by
  unfold upTo at *
  rw [eq_false_iff]
  intro htr
  by_cases hrs : key r = key s
  · rw [hrs, h'] at htr; cases htr
  · rcases before_total (hkey r) (hkey s) hrs with hlt | hlt
    · rw [before_trans htr hlt] at h'; cases h'
    · rw [hlt] at h; cases h

omit hkey in
theorem upTo_total (r s : R) : upTo ds key r s ∨ upTo ds key s r := by
  unfold upTo
  cases h : before ds (key s) (key r) with
  | false => exact .inl rfl
  | true => exact .inr (before_asymm h)

theorem pairwise_sorted (l : List R) : (sorted ds key l).Pairwise (upTo ds key) := by
  have : IsTrans R (upTo ds key) := ⟨fun _ _ _ => upTo_trans hkey⟩
  have : Std.Total (upTo ds key) := ⟨upTo_total⟩
  exact pairwise_insertionSort _ l

/-- **There is one way to sort rows no two of which are alike.** -/
theorem sorted_eq {l m : List R} (hperm : m.Perm l) (hm : Strict ds key m) : sorted ds key l = m := by
  have hle : m.Pairwise (upTo ds key) := hm.imp fun h => before_asymm h
  have hp : (sorted ds key l).Perm m := (perm_insertionSort _ l).trans hperm.symm
  have hanti : ∀ r s, r ∈ m → s ∈ m → upTo ds key r s → upTo ds key s r → r = s := by
    intro r s hr hs h h'
    by_contra hne
    have hs' : Std.Symm fun r s : R => before ds (key r) (key s) ∨ before ds (key s) (key r) :=
      ⟨fun _ _ => Or.symm⟩
    have := (hm.imp fun h => Or.inl h : m.Pairwise fun r s =>
      before ds (key r) (key s) ∨ before ds (key s) (key r)).forall hr hs hne
    unfold upTo at h h'
    rcases this with hlt | hlt
    · rw [hlt] at h'; cases h'
    · rw [hlt] at h; cases h
  refine List.Perm.eq_of_pairwise ?_ (pairwise_sorted hkey l) hle hp
  intro r s hr hs
  exact hanti r s (hp.subset hr) hs

theorem strict_sorted {l : List R} (hne : l.Pairwise fun r s => key r ≠ key s) :
    Strict ds key (sorted ds key l) := by
  have hperm := perm_insertionSort (upTo ds key) l
  have hne' : (sorted ds key l).Pairwise fun r s => key r ≠ key s :=
    hne.perm hperm.symm fun h => h.symm
  refine (hne'.and (pairwise_sorted hkey l)).imp ?_
  rintro r s ⟨hrs, hup⟩
  rcases before_total (hkey r) (hkey s) hrs with h | h
  · exact h
  · unfold upTo at hup; rw [h] at hup; cases hup

end Rows

section Cuts

variable {R : Type} {ds : List Bool} {key : R → List V} {l : List R}

theorem filter_all {p : R → Bool} (h : ∀ r ∈ l, p r) : l.filter p = l :=
  filter_eq_self.mpr h

theorem filter_none {p : R → Bool} (h : ∀ r ∈ l, p r = false) : l.filter p = [] :=
  filter_eq_nil_iff.mpr fun r hr => by rw [h r hr]; exact false_ne_true

/-- The rows behind one row of a sorted list are those that follow it. -/
theorem filter_after {a c : List R} {r : R} (h : Strict ds key (a ++ r :: c)) :
    ((a ++ r :: c).filter fun s => before ds (key r) (key s)) = c := by
  obtain ⟨-, hrc, hcross⟩ := pairwise_append.mp h
  obtain ⟨hr, -⟩ := pairwise_cons.mp hrc
  rw [filter_append, filter_none (l := a) fun s hs => before_asymm (hcross s hs r (by simp)),
    filter_cons, before_irrefl, filter_all hr]
  rfl

/-- The rows in front of it are those that precede it. -/
theorem filter_before {a c : List R} {r : R} (h : Strict ds key (a ++ r :: c)) :
    ((a ++ r :: c).filter fun s => before ds (key s) (key r)) = a := by
  obtain ⟨-, hrc, hcross⟩ := pairwise_append.mp h
  obtain ⟨hr, -⟩ := pairwise_cons.mp hrc
  rw [filter_append, filter_all (l := a) fun s hs => hcross s hs r (by simp), filter_cons,
    before_irrefl, filter_none fun s hs => before_asymm (hr s hs)]
  exact append_nil a

/-- Turning every direction around turns the list around. -/
theorem Strict.reverse {m : List R} (h : Strict ds key m) : Strict (ds.map (!·)) key m.reverse := by
  refine pairwise_reverse.mpr (h.imp ?_)
  intro r s hrs
  rw [before_flip]
  exact hrs

/-- No row comes after the last one. -/
theorem Strict.last {m : List R} (h : Strict ds key m) {e : R} (he : e ∈ m) :
    ∃ z zs, m.reverse = z :: zs ∧ (z = e ∨ before ds (key e) (key z)) := by
  rcases eq_nil_or_concat m with rfl | ⟨init, z, rfl⟩
  · cases he
  · refine ⟨z, init.reverse, by simp, ?_⟩
    rw [concat_eq_append] at h he
    rcases mem_append.mp he with hinit | hz
    · exact .inr ((pairwise_append.mp h).2.2 e hinit z (by simp))
    · exact .inl (mem_singleton.mp hz).symm

variable (hkey : ∀ r, (key r).length = ds.length) (hne : l.Pairwise fun r s => key r ≠ key s)
include hkey hne

/-- Sorting the rows that pass a test is passing the sorted rows through it. -/
theorem sorted_filter (p : R → Bool) :
    sorted ds key (l.filter p) = (sorted ds key l).filter p := by
  have hperm : (sorted ds key l).Perm l := perm_insertionSort _ l
  exact sorted_eq hkey (hperm.filter p) ((strict_sorted hkey hne).sublist filter_sublist)

theorem sorted_flip :
    sorted (ds.map (!·)) key l = (sorted ds key l).reverse := by
  have hperm : (sorted ds key l).Perm l := perm_insertionSort _ l
  have hkey' : ∀ r, (key r).length = (ds.map (!·)).length := fun r => by rw [hkey, length_map]
  exact sorted_eq hkey' ((reverse_perm _).trans hperm) (strict_sorted hkey hne).reverse

end Cuts

end Hesape.Order
