import Mathlib.Data.List.Basic

/-!
# Flat condition lists

A `where` or `on` list is printed as one flat line: every condition carries the
word that joins it to what stands before it, and nothing is parenthesised except
what is itself a group.  What such a line means is decided by precedence, `and`
binding tighter than `or`, so a single `or` at the top takes everything before it
out of conjunction with everything after it.

`evalClauses` reads a flat list that way, over three-valued truth.  `blocks` cuts
the list at its `or`s, and `evalClauses_eq_true_iff` says the line is true exactly
when one block is true throughout.  From it:

* `evalClauses_conj`: in a list without `or` every condition holds.
* `implies_iff`: a line implies a condition exactly when every block of it names one.
-/

namespace Hesape.Sql

open List

/-! ### Three-valued truth -/

/-- The truth of a condition; `none` is unknown, what a comparison with null
gives. -/
abbrev Truth := Option Bool

namespace Truth

def and : Truth → Truth → Truth
  | some false, _ => some false
  | _, some false => some false
  | some true, some true => some true
  | _, _ => none

def or : Truth → Truth → Truth
  | some true, _ => some true
  | _, some true => some true
  | some false, some false => some false
  | _, _ => none

def not (a : Truth) : Truth := a.map (!·)

@[simp] theorem and_eq_true {a b : Truth} :
    a.and b = some true ↔ a = some true ∧ b = some true := by
  rcases a with _ | (_ | _) <;> rcases b with _ | (_ | _) <;> decide

@[simp] theorem or_eq_true {a b : Truth} :
    a.or b = some true ↔ a = some true ∨ b = some true := by
  rcases a with _ | (_ | _) <;> rcases b with _ | (_ | _) <;> decide

theorem and_some (a b : Bool) : Truth.and (some a) (some b) = some (a && b) := by
  cases a <;> cases b <;> rfl

theorem or_some (a b : Bool) : Truth.or (some a) (some b) = some (a || b) := by
  cases a <;> cases b <;> rfl

end Truth

/-! ### Flat lists -/

/-- The word in front of a condition: `and`, `or`, `and not`, `or not`. -/
structure Conn where
  disj : Bool
  neg : Bool

namespace Conn

def and : Conn := ⟨false, false⟩
def or : Conn := ⟨true, false⟩

/-- The truth of a condition after the `not` its word may carry. -/
def sign (k : Conn) (a : Truth) : Truth := if k.neg then a.not else a

@[simp] theorem sign_of_not_neg {k : Conn} (h : k.neg = false) (a : Truth) : k.sign a = a := by
  simp [sign, h]

end Conn

section Eval

variable {C : Type*} (ev : C → Truth)

/-- Reads the rest of a line whose current block is worth `cur` so far. -/
def evalTail : Truth → List (Conn × C) → Truth
  | cur, [] => cur
  | cur, (k, c) :: r =>
    if k.disj then cur.or (evalTail (k.sign (ev c)) r)
    else evalTail (cur.and (k.sign (ev c))) r

/-- What a flat line means.  The first word is dropped by the printer (its `not`
stays), and a line with no condition at all filters nothing. -/
def evalClauses : List (Conn × C) → Truth
  | [] => some true
  | (k, c) :: r => evalTail ev (k.sign (ev c)) r

/-- A block: conditions joined by `and` only. -/
def BlockTrue (b : List (Conn × C)) : Prop := ∀ p ∈ b, p.1.sign (ev p.2) = some true

end Eval

/-- The blocks of the rest of a line, the current one being `cur`. -/
def blocksFrom {C : Type*} : List (Conn × C) → List (Conn × C) → List (List (Conn × C))
  | cur, [] => [cur]
  | cur, p :: r => if p.1.disj then cur :: blocksFrom [p] r else blocksFrom (cur ++ [p]) r

/-- A flat line cut at its `or`s. -/
def blocks {C : Type*} : List (Conn × C) → List (List (Conn × C))
  | [] => [[]]
  | p :: r => blocksFrom [p] r

section Blocks

variable {C : Type*} {ev : C → Truth}

theorem blockTrue_append {a b : List (Conn × C)} :
    BlockTrue ev (a ++ b) ↔ BlockTrue ev a ∧ BlockTrue ev b := by
  simp only [BlockTrue, mem_append, or_imp, forall_and]

@[simp] theorem blockTrue_singleton {p : Conn × C} :
    BlockTrue ev [p] ↔ p.1.sign (ev p.2) = some true := by
  simp [BlockTrue]

theorem evalTail_eq_true_iff : ∀ (r cur : List (Conn × C)) (a : Truth),
    (a = some true ↔ BlockTrue ev cur) →
    (evalTail ev a r = some true ↔ ∃ b ∈ blocksFrom cur r, BlockTrue ev b) := by
  intro r
  induction r with
  | nil => intro cur a h; simpa [evalTail, blocksFrom] using h
  | cons p r ih =>
    intro cur a h
    obtain ⟨k, c⟩ := p
    by_cases hk : k.disj
    · have hp := ih [(k, c)] (k.sign (ev c)) (blockTrue_singleton (p := (k, c))).symm
      simp only [evalTail, hk, if_true, Truth.or_eq_true, hp, h, blocksFrom, mem_cons,
        exists_eq_or_imp]
    · have hp := ih (cur ++ [(k, c)]) (a.and (k.sign (ev c)))
        (by rw [Truth.and_eq_true, h, blockTrue_append, blockTrue_singleton])
      simpa only [evalTail, hk, blocksFrom, if_false, Bool.false_eq_true] using hp

variable {cs : List (Conn × C)} {B : Type*}

/-- **Precedence.**  A flat line is true exactly when one of its blocks is. -/
theorem evalClauses_eq_true_iff :
    evalClauses ev cs = some true ↔ ∃ b ∈ blocks cs, BlockTrue ev b := by
  cases cs with
  | nil => simp [evalClauses, blocks, BlockTrue]
  | cons p r => exact evalTail_eq_true_iff r [p] _ (blockTrue_singleton (p := p)).symm

/-- No `or` after the first condition. -/
def Conj (cs : List (Conn × C)) : Prop := ∀ p ∈ cs, p.1.disj = false

instance (cs : List (Conn × C)) : Decidable (Conj cs) :=
  inferInstanceAs (Decidable (∀ p ∈ cs, p.1.disj = false))

theorem blocksFrom_conj : ∀ (r cur : List (Conn × C)), Conj r → blocksFrom cur r = [cur ++ r] := by
  intro r
  induction r with
  | nil => intro cur _; simp [blocksFrom]
  | cons p r ih =>
    intro cur h
    have hp : p.1.disj = false := h p (by simp)
    rw [blocksFrom, if_neg (by simp [hp]), ih _ (fun q hq => h q (by simp [hq]))]
    simp

theorem blocks_conj (h : Conj cs) : blocks cs = [cs] := by
  cases cs with
  | nil => rfl
  | cons p r => exact blocksFrom_conj r [p] (fun q hq => h q (by simp [hq]))

theorem evalClauses_conj (h : Conj cs) :
    evalClauses ev cs = some true ↔ BlockTrue ev cs := by
  rw [evalClauses_eq_true_iff, blocks_conj h]
  simp

theorem blocksFrom_snoc (q : Conn × C) (hq : q.1.disj = false) : ∀ (r cur : List (Conn × C)),
    ∃ before last, blocksFrom cur r = before ++ [last] ∧
      blocksFrom cur (r ++ [q]) = before ++ [last ++ [q]] := by
  intro r
  induction r with
  | nil => intro cur; exact ⟨[], cur, rfl, by simp [blocksFrom, hq]⟩
  | cons p r ih =>
    intro cur
    by_cases hp : p.1.disj
    · obtain ⟨before, last, h, h'⟩ := ih [p]
      exact ⟨cur :: before, last, by simp [blocksFrom, hp, h], by simp [blocksFrom, hp, h']⟩
    · obtain ⟨before, last, h, h'⟩ := ih (cur ++ [p])
      exact ⟨before, last, by rw [blocksFrom, if_neg hp, h], by rw [cons_append, blocksFrom, if_neg hp, h']⟩

/-- A condition with `and` behind a line joins its last block only. -/
theorem blocks_snoc (q : Conn × C) (hq : q.1.disj = false) (cs : List (Conn × C)) :
    ∃ before last, blocks cs = before ++ [last] ∧ blocks (cs ++ [q]) = before ++ [last ++ [q]] := by
  cases cs with
  | nil => exact ⟨[], [], rfl, rfl⟩
  | cons p r => exact blocksFrom_snoc q hq r [p]

/-- So it bounds what meets no block before the last. -/
theorem evalClauses_snoc {q : Conn × C} (hq : q.1.disj = false) :
    evalClauses ev (cs ++ [q]) = some true ↔ (∃ b ∈ (blocks cs).dropLast, BlockTrue ev b) ∨
      evalClauses ev cs = some true ∧ q.1.sign (ev q.2) = some true := by
  obtain ⟨_, last, hcs, hsnoc⟩ := blocks_snoc q hq cs
  rw [evalClauses_eq_true_iff, evalClauses_eq_true_iff, hsnoc, hcs, dropLast_concat]
  simp only [mem_append, mem_singleton]
  constructor
  · rintro ⟨b, hmem | rfl, htrue⟩
    · exact .inl ⟨b, hmem, htrue⟩
    · obtain ⟨hlast, hcond⟩ := blockTrue_append.mp htrue
      exact .inr ⟨⟨last, .inr rfl, hlast⟩, blockTrue_singleton.mp hcond⟩
  · rintro (⟨b, hmem, htrue⟩ | ⟨⟨b, hmem | rfl, htrue⟩, hcond⟩)
    · exact ⟨b, .inl hmem, htrue⟩
    · exact ⟨b, .inl hmem, htrue⟩
    · exact ⟨_, .inr rfl, blockTrue_append.mpr ⟨htrue, blockTrue_singleton.mpr hcond⟩⟩

/-! ### What a line implies -/

/-- Whatever its conditions are worth, the line is true only when one of those in `p` is. -/
def Implies (p : C → Prop) (cs : List (Conn × C)) : Prop :=
  ∀ ev : C → Truth, evalClauses ev cs = some true → ∃ c, p c ∧ ev c = some true

variable {p : C → Prop}

/-- **A line implies a condition when every block names it.** -/
theorem implies_of_blocks (h : ∀ b ∈ blocks cs, ∃ q ∈ b, q.1.neg = false ∧ p q.2) : Implies p cs := by
  intro _ htrue
  obtain ⟨b, hb, hall⟩ := evalClauses_eq_true_iff.mp htrue
  obtain ⟨q, hq, hneg, hp⟩ := h b hb
  have := hall q hq
  rw [Conn.sign_of_not_neg hneg] at this
  exact ⟨q.2, hp, this⟩

/-- A conjunction implies what it names. -/
theorem implies_of_mem (h : Conj cs) {q : Conn × C}
    (hq : q ∈ cs) (hneg : q.1.neg = false) (hp : p q.2) : Implies p cs := by
  refine implies_of_blocks fun b hb => ?_
  rw [blocks_conj h, mem_singleton] at hb
  exact ⟨q, hb ▸ hq, hneg, hp⟩

/-- The alternatives a line opens when it goes on after another: its blocks but the one that
continues what stands before it. -/
def alternatives (cs : List (Conn × C)) : List (List (Conn × C)) := (blocksFrom [] cs).tail

theorem blocksFrom_eq : ∀ (r cur : List (Conn × C)),
    ∃ x, (∀ q ∈ x, q ∈ r) ∧ blocksFrom cur r = (cur ++ x) :: alternatives r := by
  intro r
  induction r with
  | nil => intro cur; exact ⟨[], by simp, by simp [blocksFrom, alternatives]⟩
  | cons p r ih =>
    intro cur
    by_cases hp : p.1.disj
    · exact ⟨[], by simp, by simp [blocksFrom, alternatives, hp]⟩
    · obtain ⟨x, hx, h⟩ := ih (cur ++ [p])
      obtain ⟨y, -, h'⟩ := ih ([] ++ [p])
      have halt : alternatives (p :: r) = alternatives r := by
        rw [alternatives, blocksFrom, if_neg hp, h', tail_cons]
      refine ⟨p :: x, ?_, ?_⟩
      · intro q hq
        rcases mem_cons.mp hq with rfl | hq
        · simp
        · exact mem_cons_of_mem _ (hx q hq)
      · rw [blocksFrom, if_neg hp, h, halt]
        simp

theorem blocksFrom_append : ∀ (r cur cs : List (Conn × C)), Conj r →
    blocksFrom cur (r ++ cs) = blocksFrom (cur ++ r) cs := by
  intro r
  induction r with
  | nil => intro cur cs _; simp
  | cons p r ih =>
    intro cur cs h
    have hp : p.1.disj = false := h p (by simp)
    rw [cons_append, blocksFrom, if_neg (by simp [hp]), ih _ _ fun q hq => h q (by simp [hq])]
    simp

/-- A line after a conjunction: the first block goes on, the others stand alone. -/
theorem blocks_append {base : List (Conn × C)} (h : Conj base) (hne : base ≠ []) :
    ∃ x, (∀ q ∈ x, q ∈ cs) ∧ blocks (base ++ cs) = (base ++ x) :: alternatives cs := by
  cases base with
  | nil => exact absurd rfl hne
  | cons p r =>
    obtain ⟨x, hx, heq⟩ := blocksFrom_eq cs (p :: r)
    refine ⟨x, hx, ?_⟩
    rw [cons_append, blocks, blocksFrom_append r [p] cs fun q hq => h q (by simp [hq])]
    exact heq

/-- A block is made of what there was and what comes. -/
theorem mem_blocksFrom : ∀ {cs cur b : List (Conn × C)}, b ∈ blocksFrom cur cs → ∀ q ∈ b, q ∈ cur ++ cs := by
  intro cs
  induction cs with
  | nil =>
    intro cur b hb q hq
    rw [mem_singleton.mp hb] at hq
    exact mem_append_left _ hq
  | cons p r ih =>
    intro cur b hb q hq
    rw [blocksFrom] at hb
    split_ifs at hb
    · rcases mem_cons.mp hb with rfl | hb
      · exact mem_append_left _ hq
      · exact mem_append_right _ (ih hb q hq)
    · have hmem := ih hb q hq
      rwa [append_assoc] at hmem

theorem mem_alternatives {b : List (Conn × C)} (hb : b ∈ alternatives cs) : ∀ q ∈ b, q ∈ cs :=
  mem_blocksFrom (mem_of_mem_tail hb)

/-- A conjunction that names nothing changes nothing about which blocks name something. -/
theorem names_append_conj {ds : List (Conn × C)} (hd : Conj ds)
    (hp : ∀ q ∈ ds, ¬ p q.2) : ∀ (cs cur : List (Conn × C)),
    (∀ b ∈ blocksFrom cur (cs ++ ds), ∃ q ∈ b, p q.2)
      ↔ ∀ b ∈ blocksFrom cur cs, ∃ q ∈ b, p q.2 := by
  intro cs
  induction cs with
  | nil =>
    intro cur
    rw [nil_append, blocksFrom_conj ds cur hd, blocksFrom]
    simp only [forall_mem_singleton, mem_append]
    constructor
    · rintro ⟨q, hq | hq, h⟩
      · exact ⟨q, hq, h⟩
      · exact absurd h (hp q hq)
    · rintro ⟨q, hq, h⟩
      exact ⟨q, .inl hq, h⟩
  | cons c _ ih =>
    intro cur
    rw [cons_append, blocksFrom, blocksFrom]
    by_cases hc : c.1.disj
    · rw [if_pos hc, if_pos hc, forall_mem_cons, forall_mem_cons, ih]
    · rw [if_neg hc, if_neg hc, ih]

/-- Blocks are cut by the words alone. -/
theorem blocksFrom_map (f : C → B) : ∀ (cs cur : List (Conn × C)),
    blocksFrom (cur.map (Prod.map id f)) (cs.map (Prod.map id f))
      = (blocksFrom cur cs).map (map (Prod.map id f)) := by
  intro cs
  induction cs with
  | nil => intro cur; rfl
  | cons p _ ih =>
    intro cur
    rw [map_cons, blocksFrom, blocksFrom, show (Prod.map id f p).1 = p.1 from rfl]
    by_cases hp : p.1.disj
    · rw [if_pos hp, if_pos hp, map_cons, ← ih [p]]
      rfl
    · rw [if_neg hp, if_neg hp, ← ih (cur ++ [p]), map_append]
      rfl

theorem blocks_map (f : C → B) (cs : List (Conn × C)) :
    blocks (cs.map (Prod.map id f)) = (blocks cs).map (map (Prod.map id f)) := by
  cases cs with
  | nil => rfl
  | cons p cs => exact blocksFrom_map f cs [p]

theorem alternatives_map (f : C → B) (cs : List (Conn × C)) :
    alternatives (cs.map (Prod.map id f)) = (alternatives cs).map (map (Prod.map id f)) := by
  rw [alternatives, alternatives, map_tail, ← blocksFrom_map f cs []]
  rfl

theorem mem_blocks {b : List (Conn × C)} (hb : b ∈ blocks cs) : ∀ q ∈ b, q ∈ cs := by
  cases cs with
  | nil => simp [mem_singleton.mp hb]
  | cons => exact mem_blocksFrom hb

/-- Without `or` a line opens no alternative. -/
theorem alternatives_conj (h : Conj cs) : alternatives cs = [] := by
  rw [alternatives, blocksFrom_conj cs [] h, tail_cons]

end Blocks

end Hesape.Sql
