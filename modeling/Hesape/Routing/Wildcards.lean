import Hesape.Text.Bytes
import Mathlib.Data.List.Infix

/-!
# Route name patterns

`wildcardMatch` cuts a pattern at its stars.  The first part has to open the name and the last one to
end it; every part between them is taken where it first occurs in what is left, and never looked for
again.  Taking it there loses nothing: a later place leaves less text behind it, and what can be
spread over a text can be spread over that text with more in front (`Spread.append`).
-/

namespace Hesape.Routing

open Text List

section Spread

variable {α : Type}

/-- `parts` occur in a text one after the other with anything before each, the last at its end. -/
def Spread : List (List α) → List α → Prop
  | [], text => text = []
  | part :: parts, text => ∃ before after, text = before ++ (part ++ after) ∧ Spread parts after

theorem Spread.append {parts : List (List α)} {text : List α} (h : Spread parts text)
    (hne : parts ≠ []) (more : List α) : Spread parts (more ++ text) := by
  cases parts with
  | nil => exact absurd rfl hne
  | cons =>
    obtain ⟨before, after, rfl, hafter⟩ := h
    exact ⟨more ++ before, after, (append_assoc ..).symm, hafter⟩

/-- The texts a pattern stands for: every star is replaced by some text. -/
inductive Fills (star : α) : List α → List α → Prop
  | nil : Fills star [] []
  | star {pattern text : List α} (any : List α) (rest : Fills star pattern text) :
    Fills star (star :: pattern) (any ++ text)
  | same {pattern text : List α} {c : α} (hc : c ≠ star) (rest : Fills star pattern text) :
    Fills star (c :: pattern) (c :: text)

variable [BEq α] [LawfulBEq α] {star : α}

/-- A pattern is filled when its first part opens the text and the others are spread over the rest. -/
theorem fills_iff {pattern : List α} : ∀ {first : List α} {parts : List (List α)} {text : List α},
    pattern.splitOn star = first :: parts →
    (Fills star pattern text ↔ ∃ rest, text = first ++ rest ∧ Spread parts rest) := by
  induction pattern with
  | nil =>
    rintro first parts text ⟨⟩
    refine ⟨fun h => ?_, ?_⟩
    · cases h
      exact ⟨[], rfl, rfl⟩
    · rintro ⟨rest, rfl, rfl⟩
      exact .nil
  | cons c pattern ih =>
    intro first parts text hsplit
    rw [splitOn_cons_eq_if_modifyHead] at hsplit
    obtain ⟨_, _, htail⟩ := exists_cons_of_ne_nil (splitOn_ne_nil star pattern)
    split at hsplit
    · next hc =>
      obtain rfl := eq_of_beq hc
      rw [htail] at hsplit
      obtain ⟨rfl, rfl⟩ := cons.inj hsplit
      constructor
      · rintro (_ | ⟨before, h⟩ | ⟨hc, -⟩)
        · obtain ⟨after, rfl, hafter⟩ := (ih htail).mp h
          exact ⟨_, rfl, before, after, rfl, hafter⟩
        · exact absurd rfl hc
      · rintro ⟨_, rfl, before, after, rfl, hafter⟩
        exact .star before ((ih htail).mpr ⟨after, rfl, hafter⟩)
    · next hc =>
      rw [htail] at hsplit
      obtain ⟨rfl, rfl⟩ := cons.inj hsplit
      constructor
      · rintro (_ | _ | ⟨-, h⟩)
        · exact absurd BEq.rfl hc
        · obtain ⟨rest, rfl, hrest⟩ := (ih htail).mp h
          exact ⟨rest, rfl, hrest⟩
      · rintro ⟨rest, rfl, hrest⟩
        exact .same (fun h => hc (h ▸ BEq.rfl)) ((ih htail).mpr ⟨rest, rfl, hrest⟩)

end Spread

/-- What follows the first occurrence of `part`, which `strings.Index` finds. -/
def behind (part text : Bytes) : Option Bytes := text.tails.findSome? part.isPrefixOf?

/-- The parts behind the first star, in what the first part left of the name. -/
def matchParts : Bytes → List Bytes → Bool
  | text, part :: next :: parts =>
    match behind part text with
    | none => false
    | some rest => matchParts rest (next :: parts)
  | text, [last] => last.isSuffixOf text
  | _, [] => false

def wildcardMatch (pattern s : Bytes) : Bool :=
  pattern == s ||
    match pattern.splitOn (byte '*') with
    | first :: next :: parts =>
      first.isPrefixOf s && matchParts (s.drop first.length) (next :: parts)
    | _ => false

theorem behind_some {part text rest : Bytes} (h : behind part text = some rest) :
    ∃ before, text = before ++ (part ++ rest) := by
  obtain ⟨_, htail, hrest⟩ := exists_of_findSome?_eq_some h
  obtain ⟨before, rfl⟩ := (mem_tails ..).mp htail
  exact ⟨before, by rw [isPrefixOf?_eq_some_iff_append_eq.mp hrest]⟩

/-- Behind the first occurrence stands everything that stands behind another. -/
theorem behind_append (part after before : Bytes) :
    ∃ more, behind part (before ++ (part ++ after)) = some (more ++ after) := by
  induction before with
  | nil =>
    refine ⟨[], ?_⟩
    obtain ⟨others, hothers⟩ : ∃ others, (part ++ after).tails = (part ++ after) :: others := by
      cases part ++ after <;> exact ⟨_, rfl⟩
    rw [behind, nil_append, hothers, findSome?_cons, isPrefixOf?_eq_some_iff_append_eq.mpr rfl]
    rfl
  | cons c before ih =>
    rw [behind, cons_append, tails, findSome?_cons]
    split
    · next rest hrest =>
      have hrest := isPrefixOf?_eq_some_iff_append_eq.mp hrest
      have hle : part.length ≤ (c :: before ++ part).length := by
        rw [length_append]; exact Nat.le_add_left ..
      refine ⟨(c :: before ++ part).drop part.length, congrArg some ?_⟩
      rw [← drop_append_of_le_length hle, append_assoc, cons_append, ← hrest, drop_left]
    · exact ih

theorem matchParts_iff : ∀ {parts : List Bytes} {text : Bytes}, parts ≠ [] →
    (matchParts text parts ↔ Spread parts text) := by
  intro parts
  induction parts with
  | nil => exact fun h => absurd rfl h
  | cons part parts ih =>
    intro text _
    cases parts with
    | nil =>
      rw [matchParts, isSuffixOf_iff_suffix]
      constructor
      · rintro ⟨before, rfl⟩
        exact ⟨before, [], by rw [append_nil], rfl⟩
      · rintro ⟨before, _, rfl, rfl⟩
        exact ⟨before, by rw [append_nil]⟩
    | cons next =>
      rw [matchParts]
      constructor
      · intro h
        split at h
        · cases h
        · next rest hrest =>
          obtain ⟨before, hbefore⟩ := behind_some hrest
          exact ⟨before, rest, hbefore, (ih (cons_ne_nil _ _)).mp h⟩
      · rintro ⟨before, after, rfl, hafter⟩
        obtain ⟨more, hmore⟩ := behind_append part after before
        rw [hmore]
        exact (ih (cons_ne_nil _ _)).mpr (hafter.append (cons_ne_nil _ _) more)

/-- **Route name patterns are globs**: a name matches when replacing each star by some text, empty or
not, turns the pattern into it, or when it is the pattern. -/
theorem wildcardMatch_iff (pattern name : Bytes) :
    wildcardMatch pattern name = true ↔ Fills (byte '*') pattern name ∨ pattern = name := by
  rw [wildcardMatch, Bool.or_eq_true, beq_iff_eq, or_comm]
  refine or_congr_left' fun hne => ?_
  obtain ⟨_, parts, hsplit⟩ := exists_cons_of_ne_nil (splitOn_ne_nil (byte '*') pattern)
  rw [hsplit, fills_iff hsplit]
  cases parts with
  | nil =>
    refine ⟨nofun, ?_⟩
    rintro ⟨_, rfl, rfl⟩
    -- No star at all: the pattern is its one part.
    have hpart : [byte '*'].intercalate (pattern.splitOn (byte '*')) = pattern := intercalate_splitOn _
    rw [hsplit, intercalate_singleton] at hpart
    exact absurd (by rw [append_nil, hpart]) hne
  | cons =>
    dsimp only
    rw [Bool.and_eq_true, matchParts_iff (cons_ne_nil _ _), isPrefixOf_iff_prefix]
    constructor
    · rintro ⟨⟨rest, rfl⟩, h⟩
      exact ⟨rest, rfl, by rwa [drop_left] at h⟩
    · rintro ⟨rest, rfl, h⟩
      exact ⟨prefix_append _ _, by rwa [drop_left]⟩

end Hesape.Routing
