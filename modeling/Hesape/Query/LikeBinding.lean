import Hesape.Text.Glob

/-!
# LIKE written as GLOB

SQLite's `like` takes capitals and small letters for the same, so a comparison that has to tell
them apart is written with `glob`, and `prepareWhereLikeBinding` writes the pattern for it: the
wildcards of `like` become those of `glob`, and what only `glob` takes for a wildcard goes into a
class of its own.  The bracket that opens a class is not among them.

A pattern without that bracket means what it meant (`glob_eq_like`).  With one, it never does: a
class takes one character of the text and at least two of the pattern, so a pattern that still
matches anything matches a text that is too short for it (`exists_short`).
-/

namespace Hesape.Query

open Hesape.Text (like glob glob_star glob_nil glob_cons glob_class bracket members members_close
  suffix_of_bracket)
open List

/-- The table of replacements. -/
def globChar : Char → List Char
  | '*' => ['[', '*', ']']
  | '?' => ['[', '?', ']']
  | '%' => ['*']
  | '_' => ['?']
  | c => [c]

def prepareWhereLikeBinding (value : List Char) (caseSensitive : Bool) : List Char :=
  if caseSensitive then value.flatMap globChar else value

/-- The prepared pattern matches under `glob` what the pattern matches under `like`. -/
def MeansLike (pattern : List Char) : Prop :=
  ∀ text, glob (prepareWhereLikeBinding pattern true) text = like none pattern text

theorem prepare_cons (p : Char) (ps : List Char) :
    prepareWhereLikeBinding (p :: ps) true = globChar p ++ prepareWhereLikeBinding ps true :=
  flatMap_cons

/-! ### One character of a pattern -/

theorem like_percent (ps text : List Char) : like none ('%' :: ps) text = text.tails.any (like none ps) := by
  rw [Hesape.Text.like.eq_def]
  rfl

variable {p : Char} {pattern : List Char}

theorem like_step (hp : p ≠ '%') (ps text : List Char) :
    like none (p :: ps) text = match text with
      | [] => false
      | c :: cs => (p = '_' || p = c) && like none ps cs := by
  cases text <;> rw [Hesape.Text.like.eq_def] <;> dsimp only <;> rw [if_neg (Option.some_ne_none p), if_neg hp]

/-- The character of a class of one. -/
theorem glob_quoted {x : Char} (hx : x = '*' ∨ x = '?') (ps text : List Char) :
    glob ('[' :: x :: ']' :: ps) text = match text with
      | [] => false
      | c :: cs => x = c && glob ps cs := by
  cases text with
  | nil => exact glob_nil (by decide)
  | cons c =>
    have hclass : bracket c (x :: ']' :: ps) = some (decide (x = c), ps) := by
      rcases hx with rfl | rfl <;> simp [bracket, members, members_close]
    rw [Bool.eq_iff_iff, glob_class, hclass]
    simp

theorem glob_percent (ps text : List Char) : glob (prepareWhereLikeBinding ('%' :: ps) true) text =
    text.tails.any (glob (prepareWhereLikeBinding ps true)) := by
  rw [prepare_cons]
  exact glob_star

/-- What a character is replaced by takes the character it took. -/
theorem glob_step (hp : p ≠ '%') (hbracket : p ≠ '[') (ps text : List Char) :
    glob (prepareWhereLikeBinding (p :: ps) true) text = match text with
      | [] => false
      | c :: cs => (p = '_' || p = c) && glob (prepareWhereLikeBinding ps true) cs := by
  rw [prepare_cons]
  unfold globChar
  split
  · exact glob_quoted (.inl rfl) _ text
  · exact glob_quoted (.inr rfl) _ text
  · exact absurd rfl hp
  · cases text with
    | nil => exact glob_nil (by decide)
    | cons => exact glob_cons (by decide) (by decide)
  · next hstar hmark _ hone =>
    cases text with
    | nil => exact glob_nil hstar
    | cons =>
      rw [singleton_append, glob_cons hstar hbracket, decide_eq_false hmark, decide_eq_false hone]

/-- **Without the bracket that opens a class**, the two patterns match the same. -/
theorem glob_eq_like (h : '[' ∉ pattern) : MeansLike pattern := by
  induction pattern with
  | nil =>
    intro text
    show glob [] text = like none [] text
    rw [glob, like]
  | cons p _ ih =>
    rw [mem_cons, not_or] at h
    obtain ⟨hbracket, hps⟩ := h
    have hsame := funext (ih hps)
    intro text
    by_cases hp : p = '%'
    · subst hp
      rw [glob_percent, like_percent, hsame]
    · rw [glob_step hp (Ne.symm hbracket), like_step hp, hsame]

/-! ### How short a text can be -/

/-- The characters of a pattern that each take one of the text. -/
def weight (pattern : List Char) : Nat := pattern.countP (· ≠ '%')

theorem weight_cons (hp : p ≠ '%') (ps : List Char) : weight (p :: ps) = weight ps + 1 := by
  simp [weight, hp]

theorem weight_percent (ps : List Char) : weight ('%' :: ps) = weight ps := by
  simp [weight]

theorem weight_le_of_like : ∀ {text : List Char}, like none pattern text →
    weight pattern ≤ text.length := by
  induction pattern with
  | nil => intro text _; exact Nat.zero_le _
  | cons p _ ih =>
    intro text h
    by_cases hp : p = '%'
    · subst hp
      rw [like_percent] at h
      obtain ⟨_, hrest, hmatch⟩ := any_eq_true.mp h
      rw [weight_percent]
      exact (ih hmatch).trans ((mem_tails _ _).mp hrest).length_le
    · rw [like_step hp] at h
      cases text with
      | nil => cases h
      | cons =>
        rw [weight_cons hp]
        exact Nat.succ_le_succ (ih (Bool.and_eq_true_iff.mp h).2)

/-- Every pattern matches itself, less the wildcards for any text. -/
theorem like_self (pattern : List Char) : like none pattern (pattern.filter (· ≠ '%')) := by
  induction pattern with
  | nil => rfl
  | cons p _ ih =>
    by_cases hp : p = '%'
    · subst hp
      rw [like_percent]
      exact any_eq_true.mpr ⟨_, (mem_tails _ _).mpr suffix_rfl, by simpa using ih⟩
    · rw [filter_cons_of_pos (by simpa using hp), like_step hp]
      dsimp only
      rw [ih, decide_eq_true rfl, Bool.or_true]
      rfl

/-- Behind a closing bracket the prepared pattern is the one of what follows in the pattern. -/
theorem prepared_of_suffix {rest : List Char} : ∀ {pattern : List Char},
    ']' :: rest <:+ prepareWhereLikeBinding pattern true →
    ∃ qs, rest = prepareWhereLikeBinding qs true ∧ weight qs < weight pattern ∧ qs.length < pattern.length := by
  intro pattern
  induction pattern with
  | nil =>
    intro h
    cases suffix_nil.mp h
  | cons p ps ih =>
    intro h
    have hsplit : (p ≠ '%' ∧ rest = prepareWhereLikeBinding ps true) ∨
        ']' :: rest <:+ prepareWhereLikeBinding ps true := by
      rw [prepare_cons] at h
      unfold globChar at h
      split at h <;> simp [suffix_cons_iff] at h ⊢
      · exact h
      · exact h
      · exact h
      · exact .inr h
      · next hpercent _ =>
        exact h.imp_left fun heq => ⟨hpercent, heq.2⟩
    rcases hsplit with ⟨hp, rfl⟩ | hps
    · exact ⟨ps, rfl, by rw [weight_cons hp]; exact Nat.lt_succ_self _, Nat.lt_succ_self _⟩
    · obtain ⟨qs, hqs, hweight, hlen⟩ := ih hps
      refine ⟨qs, hqs, hweight.trans_le ?_, hlen.trans (Nat.lt_succ_self _)⟩
      exact List.Sublist.countP_le (sublist_cons_self p ps)

/-- **A prepared pattern that matches anything matches a short text**, and with a bracket in the
pattern one that is too short for it. -/
theorem exists_short : ∀ {text : List Char},
    glob (prepareWhereLikeBinding pattern true) text →
    ∃ short, glob (prepareWhereLikeBinding pattern true) short ∧ short.length ≤ weight pattern ∧
      ('[' ∈ pattern → short.length < weight pattern) := by
  -- A class takes more than one character of the pattern, so the induction is on the length.
  induction hn : pattern.length using Nat.strong_induction_on generalizing pattern with
  | _ n ih =>
    subst hn
    intro text h
    cases pattern with
    | nil => exact ⟨[], by rw [prepareWhereLikeBinding, if_pos rfl, flatMap_nil, glob]; rfl, Nat.zero_le _, nofun⟩
    | cons p ps =>
      by_cases hbracket : p = '['
      · subst hbracket
        have hprepared : prepareWhereLikeBinding ('[' :: ps) true = '[' :: prepareWhereLikeBinding ps true := rfl
        rw [hprepared] at h ⊢
        cases text with
        | nil => rw [glob_nil (by decide)] at h; cases h
        | cons c =>
          obtain ⟨rest, hclass, hrest⟩ := glob_class.mp h
          obtain ⟨qs, rfl, _, hlen⟩ := prepared_of_suffix (suffix_of_bracket hclass)
          obtain ⟨short, hshort, hle, -⟩ := ih qs.length (hlen.trans (Nat.lt_succ_self _)) rfl hrest
          rw [weight_cons (by decide)]
          refine ⟨c :: short, glob_class.mpr ⟨_, hclass, hshort⟩, ?_, fun _ => ?_⟩
          all_goals
            simp only [length_cons]
            omega
      · by_cases hp : p = '%'
        · subst hp
          rw [glob_percent] at h
          obtain ⟨rest, -, hrest⟩ := any_eq_true.mp h
          obtain ⟨short, hshort, hle, hlt⟩ := ih ps.length (Nat.lt_succ_self _) rfl hrest
          rw [weight_percent]
          refine ⟨short, ?_, hle, fun hmem => hlt (mem_of_ne_of_mem (by decide) hmem)⟩
          rw [glob_percent]
          exact any_eq_true.mpr ⟨short, (mem_tails _ _).mpr suffix_rfl, hshort⟩
        · rw [glob_step hp hbracket] at h
          cases text with
          | nil => cases h
          | cons c =>
            obtain ⟨hc, hcs⟩ := Bool.and_eq_true_iff.mp h
            obtain ⟨short, hshort, hle, hlt⟩ := ih ps.length (Nat.lt_succ_self _) rfl hcs
            rw [weight_cons hp]
            refine ⟨c :: short, ?_, Nat.succ_le_succ hle, fun hmem => Nat.succ_lt_succ (hlt ?_)⟩
            · rw [glob_step hp hbracket]
              exact Bool.and_eq_true_iff.mpr ⟨hc, hshort⟩
            · exact mem_of_ne_of_mem (Ne.symm hbracket) hmem

/-- **A case-sensitive pattern means what it says** exactly when it has no bracket that opens a
class. -/
theorem meansLike_iff (pattern : List Char) : MeansLike pattern ↔ '[' ∉ pattern := by
  refine ⟨fun h hmem => ?_, glob_eq_like⟩
  have hself := like_self pattern
  rw [← h] at hself
  obtain ⟨_, hshort, -, hlt⟩ := exists_short hself
  rw [h] at hshort
  exact absurd (weight_le_of_like hshort) (Nat.not_le.mpr (hlt hmem))

/-- The pattern `[a]` finds the text `a`, which it does not match, and not itself. -/
theorem bracketed_pattern_misread : ¬ MeansLike ['[', 'a', ']'] := by
  intro h
  have hglob : glob (prepareWhereLikeBinding ['[', 'a', ']'] true) ['a'] :=
    glob_class.mpr ⟨[], rfl, by rw [glob]; rfl⟩
  rw [h] at hglob
  revert hglob
  decide

end Hesape.Query
