import Mathlib.Data.Nat.Digits.Defs
import Mathlib.Tactic.IntervalCases

/-!
# Numbers in text

`padded b w n` writes `n` in base `b` with at least `w` digits and `formatInt` a number with its sign;
`parseUint` reads digits and `parseInt` digits with a sign.  A number that fits its width is read back, and takes up
exactly that width (`parseUint_padded`, `length_padded`); what is read from a text is no longer
than the text allows (`parseUint_lt`, `parseInt_lt`).
-/

namespace Hesape.Text

open List
open Option

/-- The value of a digit in a base up to thirty-six, either case. -/
def digitVal (b : Nat) (c : Char) : Option Nat :=
  let v :=
    if '0' ≤ c ∧ c ≤ '9' then c.toNat - '0'.toNat
    else if 'a' ≤ c ∧ c ≤ 'z' then c.toNat - 'a'.toNat + 10
    else if 'A' ≤ c ∧ c ≤ 'Z' then c.toNat - 'A'.toNat + 10
    else b
  if v < b then some v else none

/-- One more digit at the end of a number that is being read. -/
def shiftIn (b : Nat) (acc : Nat) (c : Char) : Option Nat := (digitVal b c).map (acc * b + ·)

/-- Digits and nothing else. -/
def parseUint (b : Nat) (s : List Char) : Option Nat :=
  if s.isEmpty then none else s.foldlM (shiftIn b) 0

/-- Decimal digits with a sign in front or not, within sixty-four bits. -/
def parseInt (s : List Char) : Option Int :=
  let n : Option Int :=
    match s with
    | '-' :: ds => (parseUint 10 ds).map fun n => -Int.ofNat n
    | '+' :: ds => (parseUint 10 ds).map Int.ofNat
    | ds => (parseUint 10 ds).map Int.ofNat
  n.filter fun n => -2 ^ 63 ≤ n ∧ n < 2 ^ 63

/-- A number with at least `w` digits, most significant first. -/
def padded (b : Nat) : Nat → Nat → List Char
  | 0, n => if n = 0 then [] else Nat.toDigits b n
  | w + 1, n => padded b w (n / b) ++ [Nat.digitChar (n % b)]

variable {b d n : Nat} {c : Char} {s : List Char}

theorem digitVal_digitChar (hb : b ≤ 16) (hd : d < b) :
    digitVal b (Nat.digitChar d) = some d := by
  have hall : ∀ b, b ≤ 16 → ∀ d, d < b → digitVal b (Nat.digitChar d) = some d := by decide
  exact hall b hb d hd

theorem length_padded : ∀ {w n : Nat}, n < b ^ w → (padded b w n).length = w := by
  intro w
  induction w with
  | zero =>
    intro n hn
    have : n = 0 := by simpa using hn
    simp [padded, this]
  | succ w ih =>
    intro n hn
    have hdiv : n / b < b ^ w := Nat.div_lt_of_lt_mul (by rw [Nat.pow_succ'] at hn; exact hn)
    simp [padded, ih hdiv]

theorem foldlM_padded (h2 : 2 ≤ b) (hb : b ≤ 16) : ∀ {w n : Nat}, n < b ^ w →
    (padded b w n).foldlM (shiftIn b) 0 = some n := by
  intro w
  induction w with
  | zero =>
    intro n hn
    have : n = 0 := by simpa using hn
    simp [padded, this]
  | succ w ih =>
    intro n hn
    have hdiv : n / b < b ^ w := Nat.div_lt_of_lt_mul (by rw [Nat.pow_succ'] at hn; exact hn)
    have hdigit := digitVal_digitChar hb (Nat.mod_lt n (by omega : 0 < b))
    have hn' : n / b * b + n % b = n := by rw [Nat.mul_comm]; exact Nat.div_add_mod n b
    simp [padded, foldlM_append, ih hdiv, shiftIn, hdigit, hn']

/-- **A number that fits its width is read back.** -/
theorem parseUint_padded {w : Nat} (h2 : 2 ≤ b) (hb : b ≤ 16) (hw : 0 < w) (hn : n < b ^ w) :
    parseUint b (padded b w n) = some n := by
  have hne : padded b w n ≠ [] := by
    intro he
    have := length_padded hn
    rw [he] at this
    simp at this
    omega
  rw [parseUint, if_neg (by simpa using hne)]
  exact foldlM_padded h2 hb hn

/-- Text of digits is read as a number without a sign. -/
theorem parseInt_padded {w : Nat} (hw : 0 < w) (hn : n < 10 ^ w) (h63 : n < 2 ^ 63) :
    parseInt (padded 10 w n) = some (n : Int) := by
  have hparse := parseUint_padded (by decide) (by decide) hw hn
  unfold parseInt
  split
  · -- A sign is no digit.
    next ds he =>
    rw [he] at hparse
    simp [parseUint, shiftIn, digitVal] at hparse
  · next ds he =>
    rw [he] at hparse
    simp [parseUint, shiftIn, digitVal] at hparse
  · rw [hparse]
    have hrange : -2 ^ 63 ≤ Int.ofNat n ∧ Int.ofNat n < 2 ^ 63 := by
      simp only [Int.ofNat_eq_natCast]
      omega
    simp only [map_some, filter_some, hrange, decide_true, and_self]
    rfl

/-! ### Numbers as they are written -/

/-- A number in decimal, with its sign. -/
def formatInt : Int → List Char
  | .ofNat n => Nat.toDigits 10 n
  | .negSucc n => '-' :: Nat.toDigits 10 (n + 1)

theorem foldlM_toDigits (n : Nat) : (Nat.toDigits 10 n).foldlM (shiftIn 10) 0 = some n := by
  induction n using Nat.strongRecOn with
  | ind n ih =>
    by_cases hn : n < 10
    · rw [Nat.toDigits_of_lt_base hn, foldlM_cons, shiftIn, digitVal_digitChar (by omega) hn]
      simp
    · have hdiv : (Nat.toDigits 10 (n / 10)).foldlM (shiftIn 10) 0 = some (n / 10) := ih (n / 10) (by omega)
      rw [Nat.toDigits_of_base_le (by omega) (by omega), foldlM_append, hdiv, bind_eq_bind,
        bind_some, foldlM_cons, shiftIn, digitVal_digitChar (by omega) (Nat.mod_lt n (by omega))]
      simp only [map_some, bind_eq_bind, bind_some, foldlM_nil]
      exact congrArg some (by omega)

theorem parseUint_toDigits (n : Nat) : parseUint 10 (Nat.toDigits 10 n) = some n := by
  unfold parseUint
  rw [if_neg (by simp [Nat.toDigits_ne_nil]), foldlM_toDigits]

theorem isDigit_of_mem_toDigits (hc : c ∈ Nat.toDigits 10 n) : c.isDigit :=
  Nat.isDigit_of_mem_toDigits (by decide) (by decide) hc

/-- A number within sixty-four bits is read back. -/
theorem parseInt_formatInt {n : Int} (hn : -2 ^ 63 ≤ n ∧ n < 2 ^ 63) : parseInt (formatInt n) = some n := by
  cases n with
  | ofNat m =>
    show parseInt (Nat.toDigits 10 m) = _
    unfold parseInt
    split
    · next ds hds => simpa using isDigit_of_mem_toDigits (hds ▸ mem_cons_self : '-' ∈ Nat.toDigits 10 m)
    · next ds hds => simpa using isDigit_of_mem_toDigits (hds ▸ mem_cons_self : '+' ∈ Nat.toDigits 10 m)
    · rw [parseUint_toDigits, map_some, filter_some, if_pos (by simpa using hn)]
  | negSucc m =>
    unfold parseInt formatInt
    simp only [parseUint_toDigits, map_some]
    rw [show -Int.ofNat (m + 1) = Int.negSucc m from rfl, filter_some, if_pos (by simpa using hn)]

/-- The characters of a number. -/
theorem mem_formatInt {n : Int} (hc : c ∈ formatInt n) : c = '-' ∨ c.isDigit := by
  cases n with
  | ofNat => exact .inr (isDigit_of_mem_toDigits hc)
  | negSucc => exact (mem_cons.mp hc).imp (fun h => h) isDigit_of_mem_toDigits

/-! ### What is read as a number -/

theorem isDigit_of_digitVal (h : digitVal 10 c = some d) : c.isDigit := by
  unfold digitVal at h
  split at h
  · next hc =>
    simp only [Char.isDigit, Bool.and_eq_true, decide_eq_true_eq]
    exact hc
  · split at h
    · simp at h
    · split at h <;> simp at h

theorem isDigit_of_foldlM : ∀ {ds : List Char} {acc n : Nat}, ds.foldlM (shiftIn 10) acc = some n →
    ∀ c ∈ ds, c.isDigit := by
  intro ds
  induction ds with
  | nil => intro acc n _ c hc; cases hc
  | cons d _ ih =>
    intro acc n h
    rw [foldlM_cons, bind_eq_bind, bind_eq_some_iff] at h
    obtain ⟨k, hk, hrest⟩ := h
    rw [shiftIn, map_eq_some_iff] at hk
    obtain ⟨v, hv, -⟩ := hk
    rw [forall_mem_cons]
    exact ⟨isDigit_of_digitVal hv, ih hrest⟩

/-- A number with or without its sign. -/
theorem digits_of_parseInt (h : ∃ n, parseInt s = some n) :
    ∃ ds, (s = ds ∨ ∃ c ∈ ['-', '+'], s = c :: ds) ∧ ds ≠ [] ∧ ∀ c ∈ ds, c.isDigit := by
  have hdigits : ∀ {ds : List Char} {n : Nat}, parseUint 10 ds = some n →
      ds ≠ [] ∧ ∀ c ∈ ds, c.isDigit := by
    intro ds n hn
    unfold parseUint at hn
    split at hn
    · cases hn
    · next hne => exact ⟨by simpa using hne, isDigit_of_foldlM hn⟩
  obtain ⟨n, hn⟩ := h
  unfold parseInt at hn
  rw [filter_eq_some_iff] at hn
  obtain ⟨hn, -⟩ := hn
  split at hn
  · obtain ⟨k, hk, -⟩ := map_eq_some_iff.mp hn
    exact ⟨_, .inr ⟨'-', by simp, rfl⟩, hdigits hk⟩
  · obtain ⟨k, hk, -⟩ := map_eq_some_iff.mp hn
    exact ⟨_, .inr ⟨'+', by simp, rfl⟩, hdigits hk⟩
  · obtain ⟨k, hk, -⟩ := map_eq_some_iff.mp hn
    exact ⟨_, .inl rfl, hdigits hk⟩

/-! ### How large a number in text can be -/

theorem digitVal_lt (h : digitVal b c = some d) : d < b := by
  obtain ⟨hlt, hd⟩ := ite_none_right_eq_some.mp h
  exact some.inj hd ▸ hlt

theorem foldlM_shiftIn_lt : ∀ {l : List Char} {acc n : Nat},
    l.foldlM (shiftIn b) acc = some n → n < (acc + 1) * b ^ l.length := by
  intro l
  induction l with
  | nil =>
    intro acc n h
    cases h
    simp
  | cons c l ih =>
    intro acc n h
    rw [foldlM_cons] at h
    obtain ⟨_, hacc, hrest⟩ := bind_eq_some_iff.mp h
    obtain ⟨d, hd, rfl⟩ := map_eq_some_iff.mp hacc
    have hdigit := digitVal_lt hd
    calc n < (acc * b + d + 1) * b ^ l.length := ih hrest
      _ ≤ ((acc + 1) * b) * b ^ l.length := Nat.mul_le_mul_right _ (by rw [Nat.add_mul]; omega)
      _ = (acc + 1) * b ^ (c :: l).length := by
        rw [Nat.mul_assoc, length_cons, Nat.pow_succ']

theorem parseUint_lt (h : parseUint b s = some n) :
    n < b ^ s.length := by
  unfold parseUint at h
  split at h
  · cases h
  · simpa using foldlM_shiftIn_lt h

theorem parseInt_lt {n : Int} (h : parseInt s = some n) :
    -(10 ^ s.length : Int) < n ∧ n < 10 ^ s.length := by
  have hpow : ∀ {m : Nat} {t : List Char}, t.length ≤ s.length → parseUint 10 t = some m →
      (m : Int) < 10 ^ s.length := by
    intro m t hlen hm
    have hlt := lt_of_lt_of_le (parseUint_lt hm) (Nat.pow_le_pow_right (by decide) hlen)
    exact_mod_cast hlt
  unfold parseInt at h
  dsimp only at h
  obtain ⟨hread, -⟩ := filter_eq_some_iff.mp h
  split at hread
  all_goals
    obtain ⟨m, hm, rfl⟩ := map_eq_some_iff.mp hread
    have hlt := hpow (by simp) hm
    simp only [Int.ofNat_eq_natCast]
    omega

end Hesape.Text
