import Hesape.Text.Like

/-!
# GLOB

`glob pattern text` is the matching of SQLite: `*` stands for any text, `?` for one character,
and `[` opens a class, which stands for one character too.  A class is read up to the bracket
that closes it: a `^` first turns it around, a bracket right at its start is one of its members,
and two characters with a `-` between them name a range.  A class that is never closed matches
nothing.
-/

namespace Hesape.Text

/-- The members of a class: whether `c` is one of them, and what follows the bracket that closes
it.  A range begins with the character before it, if that is not a range of its own. -/
def members (c : Char) : Option Char → Bool → List Char → Option (Bool × List Char)
  | _, _, [] => none
  | prior, seen, x :: r =>
    if x = ']' then some (seen, r)
    else
      match prior, r with
      | some low, high :: r' =>
        if x = '-' ∧ high ≠ ']' then members c none (seen || (low ≤ c && c ≤ high)) r'
        else members c (some x) (seen || x = c) (high :: r')
      | _, r => members c (some x) (seen || x = c) r

/-- A class, behind the bracket that opens it. -/
def bracket (c : Char) : List Char → Option (Bool × List Char)
  | '^' :: ']' :: r => (members c none (c = ']') r).map fun m => (!m.1, m.2)
  | '^' :: r => (members c none false r).map fun m => (!m.1, m.2)
  | ']' :: r => members c none (c = ']') r
  | r => members c none false r

theorem members_close (c : Char) (prior : Option Char) (seen : Bool) (r : List Char) :
    members c prior seen (']' :: r) = some (seen, r) := by
  rw [members.eq_def]
  rfl

theorem suffix_of_members {c : Char} {l : List Char} {prior : Option Char} {seen : Bool}
    {found : Bool × List Char} (h : members c prior seen l = some found) : ']' :: found.2 <:+ l := by
  fun_induction members c prior seen l with
  | case1 => cases h
  | case2 prior seen r =>
    cases h
    exact List.suffix_rfl
  | case3 seen x hx low high r' hrange ih =>
    exact ((ih h).trans (List.suffix_cons high r')).trans (List.suffix_cons x _)
  | case4 seen x hx low high r' hrange ih => exact (ih h).trans (List.suffix_cons x _)
  | case5 prior seen x hx r hother ih => exact (ih h).trans (List.suffix_cons x r)

/-- What follows a class follows a closing bracket. -/
theorem suffix_of_bracket {c : Char} {l : List Char} {found : Bool × List Char}
    (h : bracket c l = some found) : ']' :: found.2 <:+ l := by
  unfold bracket at h
  split at h
  · next r =>
    obtain ⟨m, hm, rfl⟩ := Option.map_eq_some_iff.mp h
    exact ((suffix_of_members hm).trans (List.suffix_cons ']' r)).trans (List.suffix_cons '^' _)
  · next r _ =>
    obtain ⟨m, hm, rfl⟩ := Option.map_eq_some_iff.mp h
    exact (suffix_of_members hm).trans (List.suffix_cons '^' r)
  · next r => exact (suffix_of_members h).trans (List.suffix_cons ']' r)
  · exact suffix_of_members h

def glob : List Char → List Char → Bool
  | [], text => text.isEmpty
  | p :: ps, text =>
    if p = '*' then text.tails.any fun rest => glob ps rest
    else
      match text with
      | [] => false
      | c :: cs =>
        if p = '[' then
          match h : bracket c ps with
          | some (true, rest) =>
            have := (suffix_of_bracket h).length_le
            glob rest cs
          | _ => false
        else (p = '?' || p = c) && glob ps cs
termination_by p => p.length
decreasing_by all_goals simp_all; try omega

variable {c : Char} {ps cs text : List Char}

theorem glob_star : glob ('*' :: ps) text = text.tails.any (glob ps) := by
  rw [glob.eq_def]
  exact if_pos rfl

theorem glob_nil {p : Char} (hp : p ≠ '*') : glob (p :: ps) [] = false := by
  rw [glob, if_neg hp]

theorem glob_cons {p : Char} (hstar : p ≠ '*') (hclass : p ≠ '[') :
    glob (p :: ps) (c :: cs) = ((p = '?' || p = c) && glob ps cs) := by
  rw [glob, if_neg hstar]
  exact if_neg hclass

theorem glob_class : glob ('[' :: ps) (c :: cs) ↔
    ∃ rest, bracket c ps = some (true, rest) ∧ glob rest cs := by
  rw [glob, if_neg (by decide)]
  dsimp only
  rw [if_pos rfl]
  split
  · next rest h => simp [h]
  · next h =>
    refine ⟨nofun, ?_⟩
    rintro ⟨rest, hrest, -⟩
    exact absurd hrest (h rest)

end Hesape.Text
