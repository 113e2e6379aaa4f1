import Mathlib.Algebra.GroupWithZero.Nat
import Mathlib.Data.Bool.Basic
import Mathlib.Data.List.Basic
import Mathlib.Data.Option.Basic

/-!
# Runs of a system

A system is a partial step function on states: `step s a` is the state after the action `a`,
or nothing when `a` cannot be taken in `s`.  A run takes one action after another, and a
condition `ok` on the actions singles out the runs that meet it at every step; interleavings
of many parties are runs whose actions name the party that moves.

What holds first and is kept by every allowed step holds in every reached state
(`Reach.invariant`).  `follow` runs a list of actions, so that a run can be computed.  Where
the parties stand in a list, `at_set` and `countP_set_add` say what becomes of the list when
one of them moves.
-/

namespace Hesape.Run

open List

variable {S A : Type}

section Reach

variable {step : S → A → Option S} {ok : S → A → Bool}

/-- `Reach step ok s t`: a run from `s` to `t`, every action of which `ok` allows in the state
it is taken in. -/
inductive Reach (step : S → A → Option S) (ok : S → A → Bool) (s : S) : S → Prop
  | refl : Reach step ok s s
  | tail {t u : S} (prior : Reach step ok s t) (a : A) (allowed : ok t a = true)
      (taken : step t a = some u) : Reach step ok s u

namespace Reach

theorem trans {s t u : S} (h : Reach step ok s t) (g : Reach step ok t u) : Reach step ok s u := by
  induction g with
  | refl => exact h
  | tail _ a allowed taken ih => exact .tail ih a allowed taken

/-- **The rule of invariants**: what holds first and is kept by every allowed step holds in
every reached state. -/
theorem invariant {I : S → Prop} {s t : S} (first : I s)
    (kept : ∀ t a u, I t → ok t a → step t a = some u → I u) (h : Reach step ok s t) :
    I t := by
  induction h with
  | refl => exact first
  | tail _ a allowed taken ih => exact kept _ a _ ih allowed taken

end Reach

end Reach

/-- The state after a list of actions, if each can be taken and is allowed. -/
def follow (step : S → A → Option S) (ok : S → A → Bool) : S → List A → Option S
  | s, [] => some s
  | s, a :: as => if ok s a then (step s a).bind fun t => follow step ok t as else none

theorem follow_cons {step : S → A → Option S} {ok : S → A → Bool} {a : A} {as : List A} {s t : S} :
    follow step ok s (a :: as) = some t ↔ ok s a ∧ ∃ u, step s a = some u ∧ follow step ok u as = some t := by
  rw [follow]
  split
  · next hok => simp only [hok, true_and, Option.bind_eq_some_iff]
  · next hok => simp only [hok, reduceCtorEq, false_and]

theorem reach_of_follow {step : S → A → Option S} {ok : S → A → Bool} :
    ∀ {as : List A} {s t : S}, follow step ok s as = some t → Reach step ok s t := by
  intro as
  induction as with
  | nil =>
    intro s t h
    cases h
    exact .refl
  | cons a _ ih =>
    intro s t h
    obtain ⟨hok, u, hu, hrest⟩ := follow_cons.mp h
    exact (Reach.tail .refl a hok hu).trans (ih hrest)

/-- A run that ends in a state with the property `P`, found by running a list of actions. -/
theorem exists_reach {step : S → A → Option S} {ok : S → A → Bool} {s : S} {P : S → Prop} [DecidablePred P]
    (as : List A) (h : (follow step ok s as).any (P ·)) : ∃ t, Reach step ok s t ∧ P t := by
  obtain ⟨t, hf, ht⟩ := (Option.any_eq_true _ _).mp h
  exact ⟨t, reach_of_follow hf, of_decide_eq_true ht⟩

/-- **The rule of noninterference**: two runs that take the same actions of one kind end related, if an
action of the other kind is nothing to the relation, on either side, and an action of that kind keeps
it when both take it. -/
theorem follow_related {step : S → A → Option S} {ok : S → A → Bool} {R : S → S → Prop} {mine : A → Bool}
    (left : ∀ s t a s', R s t → ok s a → step s a = some s' → mine a = false → R s' t)
    (right : ∀ s t a t', R s t → ok t a → step t a = some t' → mine a = false → R s t')
    (both : ∀ s t a s' t', R s t → ok s a → ok t a → step s a = some s' → step t a = some t' →
      mine a → R s' t') :
    ∀ {as bs : List A} {s t s' t' : S}, R s t → follow step ok s as = some s' →
      follow step ok t bs = some t' → as.filter mine = bs.filter mine → R s' t' := by
  intro as
  induction as with
  | nil =>
    intro bs
    induction bs with
    | nil =>
      intro s t s' t' hR hs ht _
      cases hs
      cases ht
      exact hR
    | cons b _ ih =>
      intro s t s' t' hR hs ht hsame
      have hb : mine b = false := by
        have := filter_eq_nil_iff.mp hsame.symm b mem_cons_self
        exact Bool.eq_false_iff.mpr this
      rw [filter_cons_of_neg (Bool.eq_false_iff.mp hb)] at hsame
      obtain ⟨hok, u, hu, hrest⟩ := follow_cons.mp ht
      exact ih (right s t b u hR hok hu hb) hs hrest hsame
  | cons a _ ih =>
    intro bs
    cases ha : mine a with
    | false =>
      intro s t s' t' hR hs ht hsame
      rw [filter_cons_of_neg (Bool.eq_false_iff.mp ha)] at hsame
      obtain ⟨hok, u, hu, hrest⟩ := follow_cons.mp hs
      exact ih (left s t a u hR hok hu ha) hrest ht hsame
    | true =>
      -- The other run takes `a` after some actions of the other kind.
      induction bs with
      | nil =>
        intro s t s' t' hR hs ht hsame
        rw [filter_cons_of_pos ha] at hsame
        cases hsame
      | cons b _ ihb =>
        intro s t s' t' hR hs ht hsame
        obtain ⟨hok, u, hu, hrest⟩ := follow_cons.mp ht
        cases hb : mine b with
        | false =>
          rw [filter_cons_of_neg (Bool.eq_false_iff.mp hb)] at hsame
          exact ihb (right s t b u hR hok hu hb) hs hrest hsame
        | true =>
          rw [filter_cons_of_pos ha, filter_cons_of_pos hb] at hsame
          obtain ⟨rfl, htail⟩ := cons.inj hsame
          obtain ⟨hok', u', hu', hrest'⟩ := follow_cons.mp hs
          exact ih (both s t a u' u hR hok' hok hu' hu ha) hrest' hrest htail

/-! ### Parties

The parties of a system stand in a list, and the action of one of them replaces it there. -/

theorem at_set {α : Type} {l : List α} {i j : Nat} {a x : α} (hx : (l.set i a)[j]? = some x) :
    (j = i ∧ x = a) ∨ (j ≠ i ∧ l[j]? = some x) := by
  by_cases hij : j = i
  · subst hij
    rw [getElem?_set_self'] at hx
    cases hl : l[j]? with
    | none => simp [hl] at hx
    | some =>
      rw [hl] at hx
      exact .inl ⟨rfl, (Option.some.inj hx).symm⟩
  · rw [getElem?_set_ne (Ne.symm hij)] at hx
    exact .inr ⟨hij, hx⟩

/-- What holds of every party holds when one is replaced by one of which it holds. -/
theorem forall_set {α : Type} {P : α → Prop} {l : List α} {i : Nat} {a : α} (h : ∀ x ∈ l, P x) (ha : P a) :
    ∀ x ∈ l.set i a, P x := by
  intro x hx
  rcases mem_or_eq_of_mem_set hx with hx | rfl
  · exact h x hx
  · exact ha

/-- So it does when one joins of which it holds. -/
theorem forall_concat {α : Type} {P : α → Prop} {l : List α} {a : α} (h : ∀ x ∈ l, P x) (ha : P a) :
    ∀ x ∈ l ++ [a], P x := forall_mem_append.mpr ⟨h, forall_mem_singleton.mpr ha⟩

/-- When a party joins, the others stand where they stood. -/
theorem at_append {α : Type} {l : List α} {j : Nat} {a x : α} (hx : (l ++ [a])[j]? = some x) :
    l[j]? = some x ∨ (j = l.length ∧ x = a) := by
  rw [getElem?_append, getElem?_singleton] at hx
  split at hx
  · exact .inl hx
  · split at hx
    · exact .inr ⟨by omega, (Option.some.inj hx).symm⟩
    · cases hx

/-- When one party moves, a count changes by what that party counts. -/
theorem countP_set_add {α : Type} {p : α → Bool} {y : α} {l : List α} {i : Nat} {x : α} (hx : l[i]? = some x) :
    (l.set i y).countP p + (if p x then 1 else 0) = l.countP p + (if p y then 1 else 0) := by
  obtain ⟨hi, rfl⟩ := List.getElem?_eq_some_iff.mp hx
  have hcounted := boole_getElem_le_countP (p := p) hi
  rw [countP_set hi]
  omega

/-- When one party does the first of what it has to do, a count over all of them loses that. -/
theorem sum_countP_set_add {α : Type} {p : α → Bool} {x : α} {rest : List α} : ∀ {l : List (List α)} {i : Nat},
    l[i]? = some (x :: rest) →
    ((l.set i rest).map (·.countP p)).sum + (if p x then 1 else 0) = (l.map (·.countP p)).sum := by
  intro l
  induction l with
  | nil =>
    intro i hi
    simp at hi
  | cons y l ih =>
    intro i hi
    cases i with
    | zero =>
      have hy : y = x :: rest := by simpa using hi
      subst hy
      simp only [set_cons_zero, map_cons, sum_cons, countP_cons]
      omega
    | succ i =>
      have := ih (i := i) (by simpa using hi)
      simp only [set_cons_succ, map_cons, sum_cons]
      omega

end Hesape.Run
