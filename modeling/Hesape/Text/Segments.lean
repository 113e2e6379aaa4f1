import Mathlib.Data.List.DropRight
import Mathlib.Data.String.Basic

/-!
# Text in segments

A key is built by writing its segments one after another with a separator between them.
What was written can be read back up to the first separator, so two keys whose first
segments are free of it agree only segment by segment (from the other end: whose last segments
are).
-/

namespace Hesape.Text

open List

theorem append_cons_inj {α : Type} {c : α} : ∀ {a a' b b' : List α},
    c ∉ a → c ∉ a' → a ++ c :: b = a' ++ c :: b' → a = a' ∧ b = b' := by
  intro a
  induction a with
  | nil =>
    intro a' b b' _ ha' h
    cases a' with
    | nil => exact ⟨rfl, by simpa using h⟩
    | cons x =>
      have hx : c = x := (cons.inj h).1
      exact absurd (hx ▸ mem_cons_self) ha'
  | cons x a ih =>
    intro a' b b' ha ha' h
    cases a' with
    | nil =>
      have hx : x = c := (cons.inj h).1
      exact absurd (hx ▸ mem_cons_self) ha
    | cons =>
      obtain ⟨hxy, hrest⟩ := cons.inj h
      obtain ⟨hl, hr⟩ := ih (fun hc => ha (mem_cons_of_mem _ hc))
        (fun hc => ha' (mem_cons_of_mem _ hc)) hrest
      exact ⟨by rw [hxy, hl], hr⟩

/-- Two texts that agree, cut at their first colon. -/
theorem colon_inj {a a' b b' : String} (ha : ':' ∉ a.toList) (ha' : ':' ∉ a'.toList)
    (h : a ++ ":" ++ b = a' ++ ":" ++ b') : a = a' ∧ b = b' := by
  have hl : a.toList ++ ':' :: b.toList = a'.toList ++ ':' :: b'.toList := by
    have := congrArg String.toList h
    simpa [String.toList_append] using this
  obtain ⟨h₁, h₂⟩ := append_cons_inj ha ha' hl
  exact ⟨String.toList_inj.mp h₁, String.toList_inj.mp h₂⟩

/-- Two texts that agree, cut at their last colon. -/
theorem last_colon_inj {a a' b b' : String} (hb : ':' ∉ b.toList) (hb' : ':' ∉ b'.toList)
    (h : a ++ ":" ++ b = a' ++ ":" ++ b') : a = a' ∧ b = b' := by
  have hl : b.toList.reverse ++ ':' :: a.toList.reverse = b'.toList.reverse ++ ':' :: a'.toList.reverse := by
    have := congrArg (fun s : String => s.toList.reverse) h
    simpa [String.toList_append] using this
  obtain ⟨h₁, h₂⟩ := append_cons_inj (by simpa using hb) (by simpa using hb') hl
  exact ⟨String.toList_inj.mp (reverse_injective h₂), String.toList_inj.mp (reverse_injective h₁)⟩

/-! A number in decimal is such a segment. -/

theorem colon_notMem_toString (n : Nat) : ':' ∉ (toString n).toList := by
  rw [Nat.toString_eq_ofList_toDigits, String.toList_ofList]
  intro hmem
  have hdigit := Nat.isDigit_of_mem_toDigits (by decide) (by decide) hmem
  exact absurd hdigit (by decide)

theorem toString_inj {m n : Nat} (h : toString m = toString n) : m = n := by
  rw [Nat.toString_eq_ofList_toDigits, Nat.toString_eq_ofList_toDigits] at h
  have := congrArg (Nat.ofDigitChars 10 · 0) (String.ofList_injective h)
  simpa [Nat.ofDigitChars_toDigits] using this

theorem append_left_inj {p a b : String} (h : p ++ a = p ++ b) : a = b := by
  have := congrArg String.toList h
  rw [String.toList_append, String.toList_append] at this
  exact String.toList_inj.mp (append_cancel_left this)

/-- Texts that start apart are apart. -/
theorem append_ne_of_take {p q : String} (n : Nat) (hpq : n ≤ p.toList.length ∧ n ≤ q.toList.length ∧
    p.toList.take n ≠ q.toList.take n) (a b : String) : p ++ a ≠ q ++ b := by
  intro h
  have hl := congrArg (fun s : String => s.toList.take n) h
  simp only [String.toList_append] at hl
  rw [take_append_of_le_length hpq.1, take_append_of_le_length hpq.2.1] at hl
  exact hpq.2.2 hl

/-- `key` starts with `start`. -/
def hasPrefix (key start : String) : Bool := start.toList.isPrefixOf key.toList

/-! ### White space -/

/-- Unicode's white space. -/
def isSpace (c : Char) : Bool :=
  let n := c.toNat
  9 ≤ n && n ≤ 13 || 0x2000 ≤ n && n ≤ 0x200A
    || n ∈ [32, 0x85, 0xA0, 0x1680, 0x2028, 0x2029, 0x202F, 0x205F, 0x3000]

/-- What is left of a text when the `p` at its two ends are taken away. -/
def trim {α : Type} (p : α → Bool) (s : List α) : List α := (s.dropWhile p).rdropWhile p

/-- `strings.TrimSpace`. -/
def trimText (s : String) : String := String.ofList (trim isSpace s.toList)

section Trim

variable {α β : Type} {p : α → Bool} {a s b : List α}

theorem trim_append (ha : ∀ c ∈ a, p c) (hb : ∀ c ∈ b, p c) : trim p (a ++ (s ++ b)) = trim p s := by
  have hback : ∀ t : List α, (t ++ b).rdropWhile p = t.rdropWhile p := by
    intro t
    rw [rdropWhile, rdropWhile, reverse_append, dropWhile_append_of_pos (by simpa using hb)]
  rw [trim, trim, dropWhile_append_of_pos ha, dropWhile_append]
  split
  · next hs => rw [isEmpty_iff.mp hs, dropWhile_eq_nil_iff.mpr hb]
  · exact hback _

/-- What was taken away are `p`. -/
theorem exists_trim (p : α → Bool) (s : List α) :
    ∃ a b, s = a ++ (trim p s ++ b) ∧ ∀ c ∈ a ++ b, p c := by
  refine ⟨s.takeWhile p, (s.dropWhile p).rtakeWhile p, ?_, ?_⟩
  · rw [trim, rdropWhile, rtakeWhile, ← reverse_append, takeWhile_append_dropWhile, reverse_reverse,
      takeWhile_append_dropWhile]
  · exact forall_mem_append.mpr ⟨fun c => mem_takeWhile_imp, fun c => mem_rtakeWhile_imp⟩

/-- A text with no `p` at its ends is left as it is. -/
theorem trim_eq_self (hh : ∀ c ∈ s.head?, ¬ p c) (hl : ∀ c ∈ s.getLast?, ¬ p c) : trim p s = s := by
  have hd : s.dropWhile p = s := by
    cases s with
    | nil => rfl
    | cons c r => rw [dropWhile_cons_of_neg (hh c rfl)]
  rw [trim, hd, rdropWhile_eq_self_iff]
  exact fun hne => hl _ (getLast?_eq_some_getLast hne)

theorem map_trim {q : β → Bool} {f : α → β} (h : ∀ c, q (f c) = p c) (s : List α) :
    (trim p s).map f = trim q (s.map f) := by
  have hp : q ∘ f = p := funext h
  rw [trim, trim, rdropWhile, rdropWhile, dropWhile_map, ← map_reverse, dropWhile_map, hp, map_reverse]

end Trim

end Hesape.Text
