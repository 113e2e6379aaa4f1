import Hesape.Text.Bytes

/-!
# Bytes in text

Hexadecimal, two digits a byte and either case when it is read; and the standard base64, four characters
for three bytes with the rest filled up with `=`.  A base64 text is read without its line ends, and the
bits that its last character has too many are not looked at.  What is written is printable and is read
back (`Hex.decode_encode`, `Base64.decode_encode`).
-/

namespace Hesape.Codes

open Text

/-! ### Hexadecimal -/

namespace Hex

def digit (n : Nat) : UInt8 := if n < 10 then UInt8.ofNat (48 + n) else UInt8.ofNat (87 + n)

def value (b : UInt8) : Option Nat :=
  if 48 ≤ b ∧ b ≤ 57 then some (b.toNat - 48)
  else if 97 ≤ b ∧ b ≤ 102 then some (b.toNat - 87)
  else if 65 ≤ b ∧ b ≤ 70 then some (b.toNat - 55)
  else none

def encode : Bytes → Bytes
  | [] => []
  | b :: s => digit (b.toNat / 16) :: digit (b.toNat % 16) :: encode s

def decode : Bytes → Option Bytes
  | [] => some []
  | [_] => none
  | a :: b :: s => do
    let high ← value a
    let low ← value b
    let rest ← decode s
    some (UInt8.ofNat (16 * high + low) :: rest)

theorem value_digit {n : Nat} (hn : n < 16) : value (digit n) = some n := by
  have hall : ∀ n, n < 16 → value (digit n) = some n := by decide
  exact hall n hn

theorem printable_digit {n : Nat} (hn : n < 16) : printable (digit n) ∧ digit n ≠ 44 := by
  have hall : ∀ n, n < 16 → printable (digit n) ∧ digit n ≠ 44 := by decide
  exact hall n hn

theorem decode_encode (s : Bytes) : decode (encode s) = some s := by
  induction s with
  | nil => rfl
  | cons b s ih =>
    have hb := b.toNat_lt
    rw [encode, decode, value_digit (by omega), value_digit (by omega), ih]
    show some (UInt8.ofNat (16 * (b.toNat / 16) + b.toNat % 16) :: s) = some (b :: s)
    rw [Nat.div_add_mod, UInt8.ofNat_toNat]

/-- Printable, and not a comma. -/
theorem printable_encode {s : Bytes} : ∀ b ∈ encode s, printable b ∧ b ≠ 44 := by
  induction s with
  | nil => exact nofun
  | cons c s ih =>
    have hc := c.toNat_lt
    intro b hb
    rcases List.mem_cons.mp hb with rfl | hb
    · exact printable_digit (by omega)
    · rcases List.mem_cons.mp hb with rfl | hb
      · exact printable_digit (by omega)
      · exact ih b hb

end Hex

/-! ### Base64 -/

namespace Base64

def digit (n : Nat) : UInt8 :=
  if n < 26 then UInt8.ofNat (65 + n)
  else if n < 52 then UInt8.ofNat (71 + n)
  else if n < 62 then UInt8.ofNat (n - 4)
  else if n = 62 then 43
  else 47

def value (b : UInt8) : Option Nat :=
  if 65 ≤ b ∧ b ≤ 90 then some (b.toNat - 65)
  else if 97 ≤ b ∧ b ≤ 122 then some (b.toNat - 71)
  else if 48 ≤ b ∧ b ≤ 57 then some (b.toNat + 4)
  else if b = 43 then some 62
  else if b = 47 then some 63
  else none

def encode : Bytes → Bytes
  | [] => []
  | [a] => [digit (a.toNat / 4), digit (a.toNat % 4 * 16), 61, 61]
  | [a, b] => [digit (a.toNat / 4), digit (a.toNat % 4 * 16 + b.toNat / 16), digit (b.toNat % 16 * 4), 61]
  | a :: b :: c :: s =>
    digit (a.toNat / 4) :: digit (a.toNat % 4 * 16 + b.toNat / 16) :: digit (b.toNat % 16 * 4 + c.toNat / 64)
      :: digit (c.toNat % 64) :: encode s

/-- Quanta of four characters; the last one may be filled up. -/
def quanta : Bytes → Option Bytes
  | [] => some []
  | a :: b :: c :: d :: s => do
    let v ← value a
    let w ← value b
    if c = 61 then
      if d = 61 ∧ s = [] then some [UInt8.ofNat (v * 4 + w / 16)] else none
    else
      let x ← value c
      if d = 61 then
        if s = [] then some [UInt8.ofNat (v * 4 + w / 16), UInt8.ofNat (w % 16 * 16 + x / 4)] else none
      else
        let y ← value d
        let rest ← quanta s
        some (UInt8.ofNat (v * 4 + w / 16) :: UInt8.ofNat (w % 16 * 16 + x / 4) :: UInt8.ofNat (x % 4 * 64 + y) :: rest)
  | _ => none

def decode (s : Bytes) : Option Bytes := quanta (s.filter fun b => b ≠ 10 && b ≠ 13)

theorem value_digit {n : Nat} (hn : n < 64) : value (digit n) = some n := by
  have hall : ∀ n, n < 64 → value (digit n) = some n := by decide
  exact hall n hn

theorem printable_digit {n : Nat} (hn : n < 64) : printable (digit n) ∧ digit n ≠ 44 ∧ digit n ≠ 61 := by
  have hall : ∀ n, n < 64 → printable (digit n) ∧ digit n ≠ 44 ∧ digit n ≠ 61 := by decide
  exact hall n hn

theorem ofNat_eq {n : Nat} {b : UInt8} (h : n = b.toNat) : UInt8.ofNat n = b := by rw [h, UInt8.ofNat_toNat]

theorem quanta_encode (s : Bytes) : quanta (encode s) = some s := by
  induction s using encode.induct with
  | case1 => rfl
  | case2 a =>
    have ha := a.toNat_lt
    rw [encode, quanta, value_digit (by omega), value_digit (by omega)]
    simp only [Option.bind_eq_bind, Option.bind_some, if_true, and_self]
    rw [ofNat_eq (b := a) (by omega)]
  | case3 a b =>
    have ha := a.toNat_lt
    have hb := b.toNat_lt
    rw [encode, quanta, value_digit (by omega), value_digit (by omega), value_digit (by omega)]
    simp only [Option.bind_eq_bind, Option.bind_some, if_neg (printable_digit (by omega : b.toNat % 16 * 4 < 64)).2.2,
      if_true]
    rw [ofNat_eq (b := a) (by omega), ofNat_eq (b := b) (by omega)]
  | case4 a b c s ih =>
    have ha := a.toNat_lt
    have hb := b.toNat_lt
    have hc := c.toNat_lt
    rw [encode, quanta, value_digit (by omega), value_digit (by omega), value_digit (by omega), value_digit (by omega), ih]
    simp only [Option.bind_eq_bind, Option.bind_some,
      if_neg (printable_digit (by omega : b.toNat % 16 * 4 + c.toNat / 64 < 64)).2.2,
      if_neg (printable_digit (by omega : c.toNat % 64 < 64)).2.2]
    rw [ofNat_eq (b := a) (by omega), ofNat_eq (b := b) (by omega), ofNat_eq (b := c) (by omega)]

theorem printable_encode {s : Bytes} : ∀ b ∈ encode s, printable b := by
  have hpad : printable 61 := rfl
  induction s using encode.induct with
  | case1 => exact nofun
  | case2 a =>
    have ha := a.toNat_lt
    simp only [encode, List.forall_mem_cons]
    exact ⟨(printable_digit (by omega)).1, (printable_digit (by omega)).1, hpad, hpad, nofun⟩
  | case3 a b =>
    have ha := a.toNat_lt
    have hb := b.toNat_lt
    simp only [encode, List.forall_mem_cons]
    exact ⟨(printable_digit (by omega)).1, (printable_digit (by omega)).1, (printable_digit (by omega)).1, hpad,
      nofun⟩
  | case4 a b c s ih =>
    have ha := a.toNat_lt
    have hb := b.toNat_lt
    have hc := c.toNat_lt
    simp only [encode, List.forall_mem_cons]
    exact ⟨(printable_digit (by omega)).1, (printable_digit (by omega)).1, (printable_digit (by omega)).1,
      (printable_digit (by omega)).1, ih⟩

theorem decode_encode (s : Bytes) : decode (encode s) = some s := by
  have hline : ∀ b, printable b → (b ≠ 10 && b ≠ 13) := by
    intro b hb
    simp only [Bool.and_eq_true, decide_eq_true_eq]
    constructor <;> rintro rfl <;> cases hb
  rw [decode, List.filter_eq_self.mpr fun b hb => hline b (printable_encode b hb), quanta_encode]

end Base64

end Hesape.Codes
