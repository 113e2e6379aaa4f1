import Mathlib.Data.List.Infix

/-!
# LIKE

`like esc pattern text` is the matching of SQL: `%` stands for any text, `_` for one character,
and a character after the escape stands for itself.  A dialect may have no escape unless one is
named.  Escaping every special character of a text and ending it with `%` gives the pattern of
all texts that start with it, in a dialect that has the escape (`like_escaped`); where there is
none, it takes a text without special characters (`like_plain`).
-/

namespace Hesape.Text

def like (esc : Option Char) : List Char → List Char → Bool
  | [], text => text.isEmpty
  | p :: ps, text =>
    if some p = esc then
      match ps, text with
      | q :: qs, c :: cs => q = c && like esc qs cs
      | _, _ => false
    else if p = '%' then text.tails.any (like esc ps)
    else
      match text with
      | [] => false
      | c :: cs => (p = '_' || p = c) && like esc ps cs

/-- The characters that mean something in a pattern escaped with a backslash. -/
def special (c : Char) : Bool := c = '%' || c = '_' || c = '\\'

/-- A backslash before every special character. -/
def escaped : List Char → List Char
  | [] => []
  | c :: cs => if special c then '\\' :: c :: escaped cs else c :: escaped cs

theorem like_rest {esc : Option Char} (hesc : esc ≠ some '%') (text : List Char) :
    like esc ['%'] text := by
  have hend : like esc [] [] := rfl
  rw [like.eq_def]
  dsimp only
  rw [if_neg (fun h => hesc h.symm), if_pos rfl]
  exact List.any_eq_true.mpr ⟨[], (List.mem_tails _ _).mpr List.nil_suffix, hend⟩

/-- A character that stands for itself. -/
theorem like_cons {esc : Option Char} {c : Char} (hesc : some c ≠ esc) (hc : special c = false)
    (ps text : List Char) :
    like esc (c :: ps) text = match text with
      | [] => false
      | d :: ds => c = d && like esc ps ds := by
  simp only [special, Bool.or_eq_false_iff, decide_eq_false_iff_not] at hc
  rw [like.eq_def]
  dsimp only
  rw [if_neg hesc, if_neg hc.1.1]
  cases text with
  | nil => rfl
  | cons => simp [hc.1.2]

/-- **Where the backslash escapes**, the escaped text is the pattern of what starts with it. -/
theorem like_escaped : ∀ start text : List Char,
    like (some '\\') (escaped start ++ ['%']) text = start.isPrefixOf text := by
  intro start
  induction start with
  | nil =>
    intro text
    exact like_rest (by decide) text
  | cons c _ ih =>
    intro text
    rw [escaped]
    by_cases hc : special c
    · rw [if_pos hc, List.cons_append, List.cons_append, like.eq_def]
      dsimp only
      rw [if_pos rfl]
      cases text with
      | nil => rfl
      | cons d ds => exact congrArg (decide (c = d) && ·) (ih ds)
    · have hc' : special c = false := Bool.eq_false_iff.mpr hc
      have hslash : some c ≠ some '\\' := by
        intro h
        rw [Option.some.inj h] at hc'
        revert hc'
        decide
      rw [if_neg hc, List.cons_append, like_cons hslash hc']
      cases text with
      | nil => rfl
      | cons d ds => exact congrArg (decide (c = d) && ·) (ih ds)

/-- **Where nothing escapes**, it is for a text without special characters. -/
theorem like_plain : ∀ start text : List Char, start.all (fun c => !special c) →
    like none (escaped start ++ ['%']) text = start.isPrefixOf text := by
  intro start
  induction start with
  | nil =>
    intro text _
    exact like_rest (by decide) text
  | cons c _ ih =>
    intro text hall
    simp only [List.all_cons, Bool.and_eq_true, Bool.not_eq_true'] at hall
    rw [escaped, hall.1, if_neg Bool.false_ne_true, List.cons_append, like_cons (Option.some_ne_none c) hall.1]
    cases text with
    | nil => rfl
    | cons d ds => exact congrArg (decide (c = d) && ·) (ih ds hall.2)

end Hesape.Text
