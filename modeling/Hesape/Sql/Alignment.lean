import Hesape.Sql.Syntax

/-!
# Values kept beside a statement

A printer that keeps the values of its placeholders in a list of its own has to keep that
list in step with the text.  The placeholders of a text are those of its pieces, in order;
`flatMap_eq_of_sublist` is the way back, from a text in step to its pieces.
-/

namespace Hesape.Sql

open List

variable {V : Type}

/-! ### Placeholders of the pieces -/

theorem joinParts_eq (js : List (Join V)) : joinParts js = js.map Join.toks := by
  induction js with
  | nil => rfl
  | cons j r ih => rw [joinParts, ih]; rfl

theorem itemParts_eq (is : List (Item V)) : itemParts is = is.map Item.toks := by
  induction is with
  | nil => rfl
  | cons i r ih => rw [itemParts, ih]; rfl

@[simp] theorem placeholders_nil : placeholders ([] : List (Tok V)) = [] := rfl

@[simp] theorem placeholders_cons (t : Tok V) (ts : List (Tok V)) :
    placeholders (t :: ts) = t.placeholders ++ placeholders ts := rfl

@[simp] theorem placeholders_append (ts us : List (Tok V)) :
    placeholders (ts ++ us) = placeholders ts ++ placeholders us := flatMap_append

@[simp] theorem placeholders_paren (ts : List (Tok V)) :
    placeholders (paren ts) = placeholders ts := by
  simp [paren, Tok.placeholders]

/-- A word in front of every piece adds none. -/
theorem placeholders_flatMap_kw {A : Type} {k : A → List (Tok V)} (h : ∀ a, placeholders (k a) = [])
    (f : A → List (Tok V)) (l : List A) :
    placeholders (l.flatMap fun a => k a ++ f a) = l.flatMap fun a => placeholders (f a) := by
  induction l with
  | nil => rfl
  | cons a l ih => rw [flatMap_cons, placeholders_append, placeholders_append, h, ih]; rfl

theorem placeholders_spaced (tss : List (List (Tok V))) :
    placeholders (tss.flatMap fun ts => .kw " " :: ts) = tss.flatMap placeholders :=
  placeholders_flatMap_kw (k := fun _ => [.kw " "]) (fun _ => rfl) id tss

theorem placeholders_commaSep (tss : List (List (Tok V))) :
    placeholders (commaSep tss) = tss.flatMap placeholders := by
  cases tss with
  | nil => rfl
  | cons ts r =>
    rw [commaSep, placeholders_append]
    exact congrArg _ (placeholders_flatMap_kw (k := fun _ => [.kw ", "]) (fun _ => rfl) id r)

theorem placeholders_joinClauses (cs : List (Conn × List (Tok V))) :
    placeholders (joinClauses cs) = cs.flatMap fun p => placeholders p.2 := by
  have hconn : ∀ p : Conn × List (Tok V), placeholders (p.1.toks : List (Tok V)) = [] := by
    rintro ⟨⟨d, n⟩, -⟩
    cases d <;> cases n <;> rfl
  cases cs with
  | nil => rfl
  | cons p r =>
    rw [joinClauses, placeholders_append, placeholders_append, placeholders_flatMap_kw hconn]
    cases p.1.neg <;> rfl

theorem placeholders_after {t : Tok V} (ht : t.placeholders = []) (us : List (Tok V)) :
    placeholders (after [t] us) = placeholders us := by
  cases us <;> simp [after, ht]

theorem placeholders_nestedToks (ts : List (Tok V)) (js : List (List (Tok V))) :
    placeholders (nestedToks ts js) = placeholders ts ++ js.flatMap placeholders := by
  cases js with
  | nil => simp [nestedToks]
  | cons => rw [nestedToks, placeholders_paren, placeholders_append, placeholders_spaced]; simp

/-! ### From the whole to the pieces -/

section Pieces

variable {A B : Type} {f g : A → List B}

/-- **Equal texts of which one is a part of the other piece by piece are equal piece by
piece.** -/
theorem flatMap_eq_of_sublist {front : List B} : ∀ {l : List A}, (∀ a ∈ l, (g a).Sublist (f a)) →
    front ++ l.flatMap f = l.flatMap g → front = [] ∧ ∀ a ∈ l, f a = g a := by
  intro l hsub h
  have hlen : ∀ {l : List A}, (∀ a ∈ l, (g a).Sublist (f a)) →
      (l.flatMap g).length ≤ (l.flatMap f).length := by
    intro l hl
    induction l with
    | nil => exact Nat.le_refl _
    | cons a l ih =>
      have ha := (hl a mem_cons_self).length_le
      have hr := ih fun b hb => hl b (mem_cons_of_mem _ hb)
      simp only [flatMap_cons, length_append]
      omega
  have hfront : front = [] := by
    have h₁ := congrArg length h
    have h₂ := hlen hsub
    rw [length_append] at h₁
    exact length_eq_zero_iff.mp (by omega)
  refine ⟨hfront, ?_⟩
  subst hfront
  rw [nil_append] at h
  induction l with
  | nil => exact fun a ha => absurd ha not_mem_nil
  | cons a l ih =>
    have hr : ∀ b ∈ l, (g b).Sublist (f b) := fun b hb => hsub b (mem_cons_of_mem _ hb)
    have ha := hsub a mem_cons_self
    have hl := congrArg length h
    simp only [flatMap_cons, length_append] at hl h
    -- Neither the head nor the tail of the part can be longer, so both are as long.
    have h₁ : (g a).length = (f a).length := by
      have := ha.length_le
      have := hlen hr
      omega
    obtain ⟨hhead, htail⟩ := append_inj h h₁.symm
    intro b hb
    rcases mem_cons.mp hb with rfl | hb
    · exact hhead
    · exact ih hr htail b hb

end Pieces

end Hesape.Sql
