import Hesape.Sql.Text
import Mathlib.Data.List.Chain

/-!
# Numbering the placeholders of a finished statement

A statement is printed with `?` for every value, and an engine that wants `$1`, `$2`, … gets the
numbers in one pass over the finished text.  `Mode.next` is that pass as a lexer: it knows quoted
text, with the quote doubled inside it, and the two kinds of comment.  `rebindFrom` writes a number
for **every** `?` that stands outside them.

`numberFrom` is the pass the printer counts on.  The printer doubles a `?` that belongs to an
operator, so here a doubled one becomes one `?` and takes no number; and `numbered` says the same
of a token list, where what is an operator, a name or a placeholder is known from the start.

The two are compared token by token.  That needs the text of a token list to be read the way it was
put together: every token ends where it should (`Tok.whole`, `Tok.closed`), and two neighbours make
no opening or closing sign between them (`Tok.fits`).  Then `rebindFrom_eq_numbered_iff`: the pass
gives what is wanted exactly when no operator of the statement holds a `?` and nothing in it is
doubled.
-/

namespace Hesape.Sql

open List

/-! ### The lexer -/

inductive Quote
  | single | double
  deriving DecidableEq

def Quote.char : Quote → Char
  | single => '\''
  | double => '"'

/-- What the next character is part of. -/
inductive Mode
  | text
  /-- a comment to the end of the line -/
  | line
  /-- a comment up to `*/` -/
  | block
  /-- the last character of such a comment -/
  | closing
  | quoted (q : Quote)
  /-- the second of two quotes -/
  | doubled (q : Quote)
  deriving DecidableEq

/-- The mode behind the character `c`, `ahead` being the character that follows it. -/
def Mode.next (m : Mode) (c : Char) (ahead : Option Char) : Mode :=
  match m with
  | text =>
    if c = '-' ∧ ahead = some '-' then line
    else if c = '/' ∧ ahead = some '*' then block
    else if c = '\'' then quoted .single
    else if c = '"' then quoted .double
    else text
  | line => if c = '\n' then text else line
  | block => if c = '*' ∧ ahead = some '/' then closing else block
  | closing => text
  | quoted q => if c = q.char then (if ahead = some q.char then doubled q else text) else quoted q
  | doubled q => quoted q

/-- The mode behind a whole text with nothing after it. -/
def finalMode : Mode → List Char → Mode
  | m, [] => m
  | m, c :: r => finalMode (m.next c r.head?) r

/-- The number of `?` that stand in plain text. -/
def bareMarks : Mode → List Char → Nat
  | _, [] => 0
  | m, c :: r => (if m = .text ∧ c = '?' then 1 else 0) + bareMarks (m.next c r.head?) r

/-- `$n`. -/
def dollar (n : Nat) : List Char := '$' :: (toString n).toList

/-- The pass over a statement, `n` placeholders being numbered already. -/
def rebindFrom : Mode → Nat → List Char → List Char
  | _, _, [] => []
  | m, n, c :: r =>
    if m = .text ∧ c = '?' then dollar (n + 1) ++ rebindFrom (m.next c r.head?) (n + 1) r
    else c :: rebindFrom (m.next c r.head?) n r

/-! ### What is wanted -/

/-- A doubled `?` is an operator's, a single one a placeholder. -/
def numberFrom : Mode → Nat → List Char → List Char
  | _, _, [] => []
  | .text, n, '?' :: '?' :: r => '?' :: numberFrom .text n r
  | .text, n, '?' :: r => dollar (n + 1) ++ numberFrom .text (n + 1) r
  | m, n, c :: r => c :: numberFrom (m.next c r.head?) n r

/-- The placeholders of a text. -/
def holesFrom : Mode → List Char → Nat
  | _, [] => 0
  | .text, '?' :: '?' :: r => holesFrom .text r
  | .text, '?' :: r => holesFrom .text r + 1
  | m, c :: r => holesFrom (m.next c r.head?) r

/-- No doubled `?` in plain text. -/
def calmFrom : Mode → List Char → Bool
  | _, [] => true
  | m, c :: r => !(m = .text && c = '?' && r.head? = some '?') && calmFrom (m.next c r.head?) r

/-- An operator as the engine spells it. -/
def undoubled : List Char → List Char
  | [] => []
  | '?' :: '?' :: r => '?' :: undoubled r
  | c :: r => c :: undoubled r

@[simp] theorem next_text_mark (ahead : Option Char) : Mode.text.next '?' ahead = .text := by
  simp [Mode.next]

variable {c : Char}

theorem numberFrom_cons {m : Mode} (n : Nat) (r : List Char) (h : ¬ (m = .text ∧ c = '?')) :
    numberFrom m n (c :: r) = c :: numberFrom (m.next c r.head?) n r := by
  rw [numberFrom.eq_def]
  split
  · next he => cases he
  · next he => cases he; exact absurd ⟨rfl, rfl⟩ h
  · next he => cases he; exact absurd ⟨rfl, rfl⟩ h
  · next he => cases he; rfl

theorem holesFrom_cons {m : Mode} (r : List Char) (h : ¬ (m = .text ∧ c = '?')) :
    holesFrom m (c :: r) = holesFrom (m.next c r.head?) r := by
  rw [holesFrom.eq_def]
  split
  · next he => cases he
  · next he => cases he; exact absurd ⟨rfl, rfl⟩ h
  · next he => cases he; exact absurd ⟨rfl, rfl⟩ h
  · next he => cases he; rfl

/-- A `?` with no second one behind it is a placeholder for both. -/
theorem numberFrom_mark (n : Nat) {r : List Char} (h : r.head? ≠ some '?') :
    numberFrom .text n ('?' :: r) = dollar (n + 1) ++ numberFrom .text (n + 1) r
      ∧ holesFrom .text ('?' :: r) = holesFrom .text r + 1 := by
  cases r with
  | nil => exact ⟨rfl, rfl⟩
  | cons d r =>
    have hd : d ≠ '?' := by simpa using h
    have hne : ∀ l, d :: r ≠ '?' :: l := fun l hl => hd (by cases hl; rfl)
    exact ⟨numberFrom.eq_3 n (d :: r) hne, holesFrom.eq_3 (d :: r) hne⟩

/-- Text without a doubled `?` is read alike by both passes. -/
theorem numberFrom_of_calm : ∀ {s : List Char} {m : Mode} {n : Nat}, calmFrom m s →
    numberFrom m n s = rebindFrom m n s ∧ holesFrom m s = bareMarks m s := by
  intro s
  induction s with
  | nil => intro m n _; cases m <;> exact ⟨rfl, rfl⟩
  | cons c r ih =>
    intro m n hcalm
    rw [calmFrom, Bool.and_eq_true] at hcalm
    by_cases hmark : m = .text ∧ c = '?'
    · obtain ⟨rfl, rfl⟩ := hmark
      have hr : r.head? ≠ some '?' := by simpa using hcalm.1
      rw [next_text_mark] at hcalm
      rw [(numberFrom_mark n hr).1, (numberFrom_mark n hr).2, rebindFrom, bareMarks,
        if_pos ⟨rfl, rfl⟩, if_pos ⟨rfl, rfl⟩, next_text_mark, (ih hcalm.2).1,
        (ih (n := n) hcalm.2).2]
      exact ⟨rfl, Nat.add_comm _ _⟩
    · rw [numberFrom_cons n r hmark, holesFrom_cons r hmark, rebindFrom, bareMarks, if_neg hmark,
        if_neg hmark, (ih hcalm.2).1, (ih (n := n) hcalm.2).2, Nat.zero_add]
      exact ⟨rfl, rfl⟩

/-- A doubled `?` shows, whatever follows. -/
theorem calm_of_rebindFrom_eq : ∀ {s : List Char} {m : Mode} {n : Nat} {x y : List Char},
    rebindFrom m n s ++ x = numberFrom m n s ++ y → calmFrom m s := by
  intro s
  induction s with
  | nil => intro m n x y _; rfl
  | cons c r ih =>
    intro m n x y he
    rw [calmFrom, Bool.and_eq_true]
    by_cases hmark : m = .text ∧ c = '?'
    · obtain ⟨rfl, rfl⟩ := hmark
      rw [rebindFrom, if_pos ⟨rfl, rfl⟩, next_text_mark] at he
      by_cases hr : r.head? = some '?'
      · -- One pass writes `$`, the other `?`.
        obtain ⟨t, rfl⟩ : ∃ t, r = '?' :: t := by
          cases r with
          | nil => cases hr
          | cons d t => exact ⟨t, by rw [head?_cons] at hr; cases hr; rfl⟩
        rw [numberFrom] at he
        cases he
      · rw [(numberFrom_mark n hr).1, append_assoc, append_assoc] at he
        refine ⟨by simpa using hr, ?_⟩
        rw [next_text_mark]
        exact ih (append_cancel_left he)
    · rw [rebindFrom, if_neg hmark, numberFrom_cons n r hmark] at he
      refine ⟨?_, ih (cons.inj he).2⟩
      rw [not_and] at hmark
      by_cases hm : m = .text
      · simp [hm, hmark hm]
      · simp [hm]

/-! ### Putting texts together -/

/-- Two characters that make a sign of their own when they meet. -/
def clash (c d : Char) : Bool :=
  (c = '-' && d = '-') || (c = '/' && d = '*') || (c = '*' && d = '/') || (c = '\'' && d = '\'')
    || (c = '"' && d = '"') || (c = '?' && d = '?')

/-- Nothing happens where `t` is put behind `s`. -/
def Seam (s t : List Char) : Prop := ∀ c ∈ s.getLast?, ∀ d ∈ t.head?, clash c d = false

theorem next_of_not_clash (m : Mode) {c d : Char} (h : clash c d = false) :
    m.next c (some d) = m.next c none := by
  simp only [clash, Bool.or_eq_false_iff, Bool.and_eq_false_iff, decide_eq_false_iff_not] at h
  cases m with
  | text | block => simp only [Mode.next]; grind
  | line => rfl
  | closing => rfl
  | quoted q => cases q <;> simp only [Mode.next, Quote.char] <;> grind
  | doubled => rfl

variable {s t : List Char}

theorem Seam.tail (h : Seam (c :: s) t) : Seam s t := by
  cases s with
  | nil => exact nofun
  | cons => exact fun a ha => h a (by rw [getLast?_cons_cons]; exact ha)

/-- The character behind the first one of a text decides the same, whatever is put behind the text. -/
theorem Seam.next (h : Seam (c :: s) t) (m : Mode) :
    m.next c (s ++ t).head? = m.next c s.head? := by
  cases s with
  | cons => rfl
  | nil =>
    cases ht : t.head? with
    | none => rw [nil_append, ht]; rfl
    | some d =>
      rw [nil_append, ht]
      exact next_of_not_clash m (h c rfl d ht)

/-- **The pass over two texts is the pass over one and then over the other.** -/
theorem rebindFrom_append {t : List Char} : ∀ {s : List Char} {m : Mode} {n : Nat}, Seam s t →
    rebindFrom m n (s ++ t)
      = rebindFrom m n s ++ rebindFrom (finalMode m s) (n + bareMarks m s) t := by
  intro s
  induction s with
  | nil => intro m n _; rfl
  | cons c r ih =>
    intro m n h
    have hr : Seam r t := h.tail
    rw [cons_append, rebindFrom, rebindFrom, finalMode, bareMarks, h.next]
    by_cases hmark : m = .text ∧ c = '?'
    · rw [if_pos hmark, if_pos hmark, if_pos hmark, ih hr, append_assoc, Nat.add_assoc]
    · rw [if_neg hmark, if_neg hmark, if_neg hmark, ih hr, cons_append, Nat.zero_add]

theorem finalMode_append {t : List Char} : ∀ {s : List Char} {m : Mode}, Seam s t →
    finalMode m (s ++ t) = finalMode (finalMode m s) t
      ∧ bareMarks m (s ++ t) = bareMarks m s + bareMarks (finalMode m s) t := by
  intro s
  induction s with
  | nil => intro m _; exact ⟨rfl, (Nat.zero_add _).symm⟩
  | cons c r ih =>
    intro m h
    have hr := ih (m := m.next c r.head?) h.tail
    rw [cons_append, finalMode, finalMode, bareMarks, bareMarks, h.next, hr.1, hr.2,
      Nat.add_assoc]
    exact ⟨rfl, rfl⟩

/-- Text that is plain at its end and has no `?` of its own: a name, a literal, a comment. -/
def inert (s : List Char) : Bool := finalMode .text s = .text && bareMarks .text s = 0

theorem inert_iff {s : List Char} :
    inert s ↔ finalMode .text s = .text ∧ bareMarks .text s = 0 := by
  simp [inert]

theorem inert_append (hs : inert s) (ht : inert t) (h : Seam s t) :
    inert (s ++ t) := by
  rw [inert_iff] at *
  obtain ⟨hmode, hmarks⟩ := finalMode_append (m := .text) h
  rw [hmode, hmarks, hs.1, hs.2, ht.1, ht.2]
  exact ⟨rfl, rfl⟩

theorem rebindFrom_of_bareMarks : ∀ {s : List Char} {m : Mode} {n : Nat}, bareMarks m s = 0 →
    rebindFrom m n s = s := by
  intro s
  induction s with
  | nil => intro m n _; rfl
  | cons c r ih =>
    intro m n h
    rw [bareMarks, Nat.add_eq_zero_iff] at h
    have hmark : ¬ (m = .text ∧ c = '?') := fun hm => by rw [if_pos hm] at h; cases h.1
    rw [rebindFrom, if_neg hmark, ih h.2]

/-! ### Operators -/

/-- Plain text from end to end. -/
def plain : List Char → Bool
  | [] => true
  | c :: r => Mode.text.next c r.head? = .text && plain r

theorem finalMode_of_plain : ∀ {s : List Char}, plain s → finalMode .text s = .text := by
  intro s
  induction s with
  | nil => intro _; rfl
  | cons c r ih =>
    intro h
    rw [plain, Bool.and_eq_true, decide_eq_true_iff] at h
    rw [finalMode, h.1]
    exact ih h.2

theorem undoubled_of_notMem : ∀ {s : List Char}, '?' ∉ s → undoubled s = s := by
  intro s
  induction s with
  | nil => intro _; rfl
  | cons c r ih =>
    intro h
    rw [mem_cons, not_or] at h
    rw [undoubled.eq_def]
    split
    · next he => cases he
    · next he => cases he; exact absurd rfl h.1
    · next he => cases he; rw [ih h.2]

theorem bareMarks_of_notMem : ∀ {s : List Char} {m : Mode}, '?' ∉ s → bareMarks m s = 0 := by
  intro s
  induction s with
  | nil => intro m _; rfl
  | cons c r ih =>
    intro m h
    rw [mem_cons, not_or] at h
    rw [bareMarks, ih h.2, if_neg fun hm => h.1 hm.2.symm]

/-- An operator with a `?` comes out with a number in it. -/
theorem notMem_of_rebindFrom_eq : ∀ {s : List Char} {n : Nat} {x y : List Char}, plain s →
    rebindFrom .text n s ++ x = undoubled s ++ y → '?' ∉ s := by
  intro s
  induction s with
  | nil => intro n x y _ _; exact not_mem_nil
  | cons c r ih =>
    intro n x y hplain he
    rw [plain, Bool.and_eq_true, decide_eq_true_iff] at hplain
    have hhead : (undoubled (c :: r)).head? = some c := by
      rw [undoubled.eq_def]
      split
      · next h => cases h
      · next h => cases h; rfl
      · next h => cases h; rfl
    have hc : c ≠ '?' := by
      rintro rfl
      rw [rebindFrom, if_pos ⟨rfl, rfl⟩] at he
      cases hu : undoubled ('?' :: r) with
      | nil => rw [hu] at hhead; cases hhead
      | cons =>
        rw [hu] at hhead he
        cases hhead
        cases he
    rw [rebindFrom, if_neg fun h => hc h.2, hplain.1, undoubled.eq_def] at he
    have hr : '?' ∉ r := by
      split at he
      · next h => cases h
      · next h => cases h; exact absurd rfl hc
      · next h => cases h; exact ih hplain.2 (cons.inj he).2
    rw [mem_cons, not_or]
    exact ⟨Ne.symm hc, hr⟩

/-! ### Numbers -/

/-- The characters the lexer looks at. -/
def special (c : Char) : Bool := c ∈ ['-', '/', '*', '\'', '"', '?']

theorem clash_of_not_special {c d : Char} (h : special c = false ∨ special d = false) :
    clash c d = false := by
  simp only [special, mem_cons, not_mem_nil, or_false, decide_eq_false_iff_not, not_or] at h
  simp only [clash, Bool.or_eq_false_iff, Bool.and_eq_false_iff, decide_eq_false_iff_not]
  grind

theorem next_text_of_not_special (h : special c = false) (ahead : Option Char) :
    Mode.text.next c ahead = .text := by
  simp only [special, mem_cons, not_mem_nil, or_false, decide_eq_false_iff_not, not_or] at h
  simp [Mode.next, h]

theorem plain_of_not_special : ∀ {s : List Char}, (∀ c ∈ s, special c = false) → plain s := by
  intro s
  induction s with
  | nil => intro _; rfl
  | cons c r ih =>
    intro h
    rw [plain, next_text_of_not_special (h c (by simp)), ih fun d hd => h d (by simp [hd])]
    rfl

theorem not_special_of_isDigit (h : c.isDigit) : special c = false := by
  rw [Bool.eq_false_iff]
  intro hs
  simp only [special, mem_cons, not_mem_nil, or_false, decide_eq_true_eq] at hs
  rcases hs with rfl | rfl | rfl | rfl | rfl | rfl <;> exact absurd h (by decide)

theorem isDigit_repr {n : Nat} (hc : c ∈ (Nat.repr n).toList) : c.isDigit := by
  rw [Nat.repr, String.toList_ofList] at hc
  exact Nat.isDigit_of_mem_toDigits (by decide) (by decide) hc

/-- A number in a statement is plain text, its sign included. -/
theorem plain_toString (n : Int) : plain (toString n).toList ∧ '?' ∉ (toString n).toList := by
  have hdigits : ∀ k : Nat, ∀ c ∈ (Nat.repr k).toList, special c = false :=
    fun k c hc => not_special_of_isDigit (isDigit_repr hc)
  have hmark : ∀ k : Nat, '?' ∉ (Nat.repr k).toList :=
    fun k hc => absurd (hdigits k _ hc) (by decide)
  cases n with
  | ofNat k =>
    show plain (Nat.repr k).toList ∧ '?' ∉ (Nat.repr k).toList
    exact ⟨plain_of_not_special (hdigits k), hmark k⟩
  | negSucc k =>
    show plain ("-" ++ Nat.repr (k + 1)).toList ∧ '?' ∉ ("-" ++ Nat.repr (k + 1)).toList
    have hd := hdigits (k + 1)
    have hm := hmark (k + 1)
    rw [String.toList_append, show "-".toList = ['-'] from rfl, singleton_append]
    generalize (Nat.repr (k + 1)).toList = l at hd hm
    have hahead : l.head? ≠ some '-' := fun h =>
      absurd (hd '-' (mem_of_mem_head? h)) (by decide)
    rw [plain, plain_of_not_special hd]
    exact ⟨by simp [Mode.next, hahead], by simp [hm]⟩

/-! ### Tokens -/

variable {V : Type}

/-- The text of a token list. -/
def chars (ts : List (Tok V)) : List Char := ts.flatMap fun t => t.text.toList

theorem toList_render (ts : List (Tok V)) : (render ts).toList = chars ts := by
  rw [render, chars, String.toList_join, flatMap_map]

namespace Tok

/-- Anything may follow. -/
def openEnd : Tok V → Bool
  | kw s _ => s.toList.getLast?.any fun c => !special c
  | _ => false

/-- It may follow anything. -/
def openStart : Tok V → Bool
  | kw s _ => s.toList.head?.any fun c => !special c
  | _ => false

def fits (t u : Tok V) : Bool := t.openEnd || u.openStart

/-- What the printer writes ends in plain text, and its names and literals are closed. -/
def whole : Tok V → Bool
  | kw s _ => finalMode .text s.toList = .text
  | quoted s => inert s.toList
  | _ => true

/-- What the caller wrote is closed: an operator is plain, a fragment ends in plain text. -/
def closed : Tok V → Bool
  | op s => plain s.toList
  | raw s _ => finalMode .text s.toList = .text
  | _ => true

/-- No operator has a `?`, and none is doubled elsewhere. -/
def calm : Tok V → Bool
  | kw s _ => calmFrom .text s.toList
  | raw s _ => calmFrom .text s.toList
  | op s => '?' ∉ s.toList
  | _ => true

/-- The placeholders a token is. -/
def holes : Tok V → Nat
  | kw s _ => holesFrom .text s.toList
  | raw s _ => holesFrom .text s.toList
  | param _ => 1
  | _ => 0

/-- A token as the engine is to see it, `n` placeholders being numbered already. -/
def numbered (n : Nat) : Tok V → List Char
  | kw s _ => numberFrom .text n s.toList
  | raw s _ => numberFrom .text n s.toList
  | op s => undoubled s.toList
  | param _ => dollar (n + 1)
  | t => t.text.toList

variable {t : Tok V}

theorem finalMode_text (hw : t.whole) (hc : t.closed) :
    finalMode .text t.text.toList = .text := by
  cases t with
  | kw => exact of_decide_eq_true hw
  | num n => exact finalMode_of_plain (plain_toString n).1
  | op => exact finalMode_of_plain hc
  | quoted => exact (inert_iff.mp hw).1
  | param =>
    show finalMode .text "?".toList = .text
    decide
  | raw => exact of_decide_eq_true hc

theorem rebindFrom_of_calm (hw : t.whole) (h : t.calm) (n : Nat) :
    rebindFrom .text n t.text.toList = t.numbered n ∧ bareMarks .text t.text.toList = t.holes := by
  cases t with
  | kw | raw => exact ⟨(numberFrom_of_calm h).1.symm, (numberFrom_of_calm (n := n) h).2.symm⟩
  | num k =>
    have hmarks := bareMarks_of_notMem (m := .text) (plain_toString k).2
    exact ⟨rebindFrom_of_bareMarks hmarks, hmarks⟩
  | op s =>
    have hmem : '?' ∉ s.toList := of_decide_eq_true h
    have hmarks := bareMarks_of_notMem (m := .text) hmem
    exact ⟨(rebindFrom_of_bareMarks hmarks).trans (undoubled_of_notMem hmem).symm, hmarks⟩
  | quoted =>
    have hmarks := (inert_iff.mp hw).2
    exact ⟨rebindFrom_of_bareMarks hmarks, hmarks⟩
  | param =>
    show rebindFrom .text n "?".toList = dollar (n + 1) ∧ bareMarks .text "?".toList = 1
    rw [show "?".toList = ['?'] from by decide]
    exact ⟨append_nil _, by decide⟩

theorem calm_of_rebindFrom (hc : t.closed) {n : Nat} {x y : List Char}
    (he : rebindFrom .text n t.text.toList ++ x = t.numbered n ++ y) : t.calm := by
  cases t with
  | kw | raw => exact calm_of_rebindFrom_eq he
  | op => exact decide_eq_true (notMem_of_rebindFrom_eq hc he)
  | num => rfl
  | quoted => rfl
  | param => rfl

end Tok

/-- A statement as the engine is to see it. -/
def numbered : Nat → List (Tok V) → List Char
  | _, [] => []
  | n, t :: ts => t.numbered n ++ numbered (n + t.holes) ts

/-- What a printer writes: whole tokens that fit together. -/
structure Spelled (ts : List (Tok V)) : Prop where
  whole : ∀ t ∈ ts, t.whole = true
  fits : ts.IsChain fun t u => t.fits u = true

theorem seam_of_fits {t : Tok V} {ts : List (Tok V)} (h : (t :: ts).IsChain fun t u => t.fits u) :
    Seam t.text.toList (chars ts) := by
  cases ts with
  | nil => exact fun _ _ _ hd => nomatch hd
  | cons u =>
    rw [isChain_cons_cons, Tok.fits, Bool.or_eq_true] at h
    intro c hc d hd
    refine clash_of_not_special ?_
    rcases h.1 with ho | ho
    · cases t with
      | kw =>
        rw [Option.mem_def] at hc
        simp only [Tok.openEnd, Tok.text] at ho hc
        rw [hc] at ho
        exact .inl (by simpa using ho)
      | _ => cases ho
    · cases u with
      | kw s hs =>
        simp only [Tok.openStart] at ho
        cases hs : s.toList with
        | nil => rw [hs] at ho; cases ho
        | cons =>
          rw [hs] at ho
          simp only [chars, flatMap_cons, Tok.text, hs, cons_append, head?_cons,
            Option.mem_def, Option.some.injEq] at hd
          rw [← hd]
          exact .inr (by simpa using ho)
      | _ => cases ho

/-- **A statement comes out of the pass as wanted exactly when no operator of it has a `?` and
nothing else is doubled.** -/
theorem rebindFrom_eq_numbered_iff : ∀ {ts : List (Tok V)}, Spelled ts → (∀ t ∈ ts, t.closed) →
    ∀ n, rebindFrom .text n (chars ts) = numbered n ts ↔ ∀ t ∈ ts, t.calm := by
  intro ts
  induction ts with
  | nil => intro _ _ n; exact ⟨nofun, fun _ => rfl⟩
  | cons t ts ih =>
    intro hs hc n
    have hs' : Spelled ts := ⟨fun u hu => hs.whole u (by simp [hu]), hs.fits.tail⟩
    have ih := ih hs' fun u hu => hc u (by simp [hu])
    have hw := hs.whole t (by simp)
    have hct := hc t (by simp)
    have hmode := Tok.finalMode_text hw hct
    rw [show chars (t :: ts) = t.text.toList ++ chars ts from rfl, rebindFrom_append (seam_of_fits hs.fits),
      hmode, numbered, forall_mem_cons]
    constructor
    · intro he
      have hcalm := Tok.calm_of_rebindFrom hct he
      obtain ⟨htext, hmarks⟩ := Tok.rebindFrom_of_calm hw hcalm n
      rw [htext, hmarks] at he
      exact ⟨hcalm, (ih _).mp (append_cancel_left he)⟩
    · rintro ⟨hcalm, hrest⟩
      obtain ⟨htext, hmarks⟩ := Tok.rebindFrom_of_calm hw hcalm n
      rw [htext, hmarks, (ih _).mpr hrest]

end Hesape.Sql
