import Hesape.Sql.Alignment
import Hesape.Sql.Rebind
import Hesape.Sql.Write

/-!
# Statements whose tokens fit together

A printed statement is `Spelled` when its parts are, because the printer puts words of its own
between them.  A `Tail` is what may stand behind anything, since it is empty or starts with such a
word, and a `Lead` what anything may follow.
-/

namespace Hesape.Sql

variable {V : Type} {ts us : List (Tok V)}

/-- A word that may stand between any two tokens. -/
def glue (cs : List Char) : Bool :=
  finalMode .text cs = .text && (cs.head?.any fun c => !special c) && cs.getLast?.any fun c => !special c

theorem Spelled.nil : Spelled ([] : List (Tok V)) := ⟨nofun, .nil⟩

theorem Spelled.single {t : Tok V} (h : t.whole) : Spelled [t] :=
  ⟨fun u hu => by rw [List.mem_singleton.mp hu]; exact h, .singleton t⟩

theorem Spelled.append (h : Spelled ts) (h' : Spelled us)
    (hfit : ∀ t ∈ ts.getLast?, ∀ u ∈ us.head?, t.fits u) : Spelled (ts ++ us) :=
  ⟨fun t ht => (List.mem_append.mp ht).elim (h.whole t) (h'.whole t),
    List.isChain_append.mpr ⟨h.fits, h'.fits, hfit⟩⟩

/-- Empty, or opened by a word of the printer's. -/
def Tail (ts : List (Tok V)) : Prop :=
  Spelled ts ∧ ∀ t ∈ ts.head?, t.openStart = true

/-- Empty, or ended by a word of the printer's. -/
def Lead (ts : List (Tok V)) : Prop :=
  Spelled ts ∧ ∀ t ∈ ts.getLast?, t.openEnd = true

theorem Tail.nil : Tail ([] : List (Tok V)) := ⟨.nil, nofun⟩

theorem Spelled.tail (h : Spelled ts) (h' : Tail us) : Spelled (ts ++ us) :=
  h.append h'.1 fun t _ u hu => by rw [Tok.fits, h'.2 u hu, Bool.or_true]

theorem Spelled.tok {t : Tok V} (hw : t.whole) (h : Tail us) : Spelled (t :: us) :=
  (Spelled.single hw).tail h

theorem Lead.append (h : Lead ts) (h' : Spelled us) : Spelled (ts ++ us) :=
  h.1.append h' fun t ht u _ => by rw [Tok.fits, h.2 t ht, Bool.true_or]

theorem Tail.append (h : Tail ts) (h' : Tail us) : Tail (ts ++ us) := by
  refine ⟨h.1.tail h', ?_⟩
  cases ts with
  | nil => exact h'.2
  | cons => exact h.2

theorem Tail.lead (h : Tail ts) (hl : Lead ts) (hne : ts ≠ []) (h' : Spelled us) : Tail (ts ++ us) := by
  refine ⟨hl.append h', ?_⟩
  cases ts with
  | nil => exact absurd rfl hne
  | cons => exact h.2

section Words

variable {cs : List Char} {m : marks (String.ofList cs) = 0}

theorem glue_iff : glue cs ↔ (Tok.kw (String.ofList cs) m : Tok V).whole
    ∧ (Tok.kw (String.ofList cs) m : Tok V).openStart ∧ (Tok.kw (String.ofList cs) m : Tok V).openEnd := by
  simp only [glue, Tok.whole, Tok.openStart, Tok.openEnd, String.toList_ofList, Bool.and_eq_true, and_assoc]

theorem Lead.nil : Lead ([] : List (Tok V)) := ⟨.nil, nofun⟩

variable (hk : glue cs = true)
include hk

theorem Lead.cons (h : Lead us) : Lead (.kw (String.ofList cs) m :: us) := by
  obtain ⟨hw, -, he⟩ := glue_iff (V := V) (m := m).mp hk
  have hword : Lead [Tok.kw (String.ofList cs) m] := ⟨.single hw, fun t ht => by cases ht; exact he⟩
  refine ⟨hword.append h.1, ?_⟩
  cases us with
  | nil => exact hword.2
  | cons => intro t ht; exact h.2 t (by rwa [List.getLast?_cons_cons] at ht)

/-- A word of the printer's and what it introduces. -/
theorem Tail.cons (h : Spelled us) : Tail (.kw (String.ofList cs) m :: us) :=
  ⟨(Lead.cons hk .nil).append h, fun t ht => by cases ht; exact ((glue_iff (V := V) (m := m)).mp hk).2.1⟩

theorem Tail.word : Tail [(.kw (String.ofList cs) m : Tok V)] := .cons hk .nil

theorem Spelled.cons (h : Spelled us) : Spelled (.kw (String.ofList cs) m :: us) :=
  (Tail.cons hk h).1

omit hk

theorem Spelled.between (h : Spelled ts) (hk : glue cs) (h' : Spelled us) :
    Spelled (ts ++ .kw (String.ofList cs) m :: us) := h.tail (.cons hk h')

theorem Spelled.word (h : Spelled ts) (hk : glue cs) : Spelled (ts ++ [.kw (String.ofList cs) m]) :=
  h.tail (.word hk)

theorem Lead.word (hk : glue cs) (h : Spelled ts) : Lead (ts ++ [.kw (String.ofList cs) m]) := by
  refine ⟨h.word hk, ?_⟩
  intro t ht
  rw [List.getLast?_concat] at ht
  cases ht
  exact ((glue_iff (V := V) (m := m)).mp hk).2.2

end Words

/-! ### Lists of parts -/

theorem Tail.flatMap {A : Type} {f : A → List (Tok V)} : ∀ {l : List A}, (∀ a ∈ l, Tail (f a)) →
    Tail (l.flatMap f) := by
  intro l
  induction l with
  | nil => intro _; exact .nil
  | cons a l ih =>
    intro h
    rw [List.flatMap_cons]
    exact (h a (by simp)).append (ih fun b hb => h b (by simp [hb]))

theorem spelled_paren (h : Spelled ts) : Tail (paren ts) :=
  .cons rfl (h.word rfl)

variable {tss : List (List (Tok V))}

theorem spelled_commaSep (h : ∀ ts ∈ tss, Spelled ts) :
    Spelled (commaSep tss) := by
  cases tss with
  | nil => exact .nil
  | cons ts =>
    exact (h ts (by simp)).tail (.flatMap fun us hu => .cons rfl (h us (by simp [hu])))

theorem tail_spaced (h : ∀ ts ∈ tss, Spelled ts) :
    Tail (tss.flatMap fun ts => Tok.kw " " :: ts) :=
  .flatMap fun us hu => .cons rfl (h us hu)

theorem tail_after {cs : List Char} {m : marks (String.ofList cs) = 0} (hk : glue cs) (h : Spelled us) :
    Tail (after [.kw (String.ofList cs) m] us) := by
  unfold after
  split
  · exact .nil
  · exact .cons hk h

theorem tail_connToks (k : Conn) (h : Spelled us) : Tail (k.toks ++ us) := by
  obtain ⟨_ | _, _ | _⟩ := k
  all_goals exact Tail.cons rfl h

theorem spelled_joinClauses {cs : List (Conn × List (Tok V))} (h : ∀ p ∈ cs, Spelled p.2) :
    Spelled (joinClauses cs) := by
  cases cs with
  | nil => exact .nil
  | cons p r =>
    obtain ⟨k, ts⟩ := p
    have hts : Spelled ts := h (k, ts) (by simp)
    have hr : Tail (r.flatMap fun p => p.1.toks ++ p.2) :=
      .flatMap fun q hq => tail_connToks q.1 (h q (by simp [hq]))
    rw [joinClauses]
    split
    · exact (Spelled.cons rfl hts).tail hr
    · exact hts.tail hr

theorem spelled_nestedToks (hts : Spelled ts) (h : ∀ us ∈ tss, Spelled us) :
    Spelled (nestedToks ts tss) := by
  cases tss with
  | nil => exact hts
  | cons => exact (spelled_paren (hts.tail (tail_spaced h))).1

theorem clauseParts_eq (cs : List (Conn × Cond V)) :
    clauseParts cs = cs.map fun p => (p.1, p.2.toks) := by
  induction cs with
  | nil => rfl
  | cons p r ih => rw [clauseParts, ih]; rfl

theorem spelled_clauses {cs : List (Conn × Cond V)} (h : ∀ p ∈ cs, Spelled p.2.toks) :
    Spelled (joinClauses (clauseParts cs)) := by
  refine spelled_joinClauses fun p hp => ?_
  rw [clauseParts_eq] at hp
  obtain ⟨q, hq, rfl⟩ := List.mem_map.mp hp
  exact h q hq

theorem tail_joins {js : List (Join V)} (h : ∀ j ∈ js, Spelled j.toks) :
    Tail ((joinParts js).flatMap fun ts => Tok.kw " " :: ts) := by
  refine tail_spaced fun ts hts => ?_
  rw [joinParts_eq] at hts
  obtain ⟨j, hj, rfl⟩ := List.mem_map.mp hts
  exact h j hj

variable {tail : List (Tok V)}

theorem spelled_select {head : List (Tok V)} {items : List (Item V)} {src : Option (Source V)}
    {hint : List (Tok V)} {joins : List (Join V)} {wheres : List (Conn × Cond V)}
    (hhead : Lead head) (hitems : ∀ i ∈ items, Spelled i.toks) (hsrc : ∀ s ∈ src, Spelled s.toks)
    (hhint : Tail hint) (hjoins : ∀ j ∈ joins, Spelled j.toks)
    (hwheres : ∀ p ∈ wheres, Spelled p.2.toks) (htail : Tail tail) :
    Spelled (Query.select head items src hint joins wheres tail).toks := by
  have hlist : Spelled (commaSep (itemParts items)) := by
    refine spelled_commaSep fun ts hts => ?_
    rw [itemParts_eq] at hts
    obtain ⟨i, hi, rfl⟩ := List.mem_map.mp hts
    exact hitems i hi
  have hfrom : Tail (optSourceToks src) := by
    cases src with
    | none => exact .nil
    | some s => exact .cons rfl (hsrc s rfl)
  rw [Query.toks]
  exact (((((hhead.append hlist).tail hfrom).tail hhint).tail (tail_joins hjoins)).tail
    (tail_after rfl (spelled_clauses hwheres))).tail htail

/-- The parts of a compound: the first may start with anything. -/
theorem spelled_compound {pre : List (Tok V)} {q : Query V} {parts : List (List (Tok V) × Query V)} (hpre : Lead pre) (hq : Spelled q.toks)
    (hparts : ∀ p ∈ parts, Tail p.1 ∧ Lead p.1 ∧ p.1 ≠ [] ∧ Spelled p.2.toks) (htail : Tail tail) :
    Spelled (Query.compound ((pre, q) :: parts) tail).toks := by
  have hrest : ∀ ps : List (List (Tok V) × Query V), (∀ p ∈ ps, p ∈ parts) → Tail (queryParts ps) := by
    intro ps
    induction ps with
    | nil => intro _; exact .nil
    | cons p _ ih =>
      intro hps
      obtain ⟨h₁, h₂, h₃, h₄⟩ := hparts p (hps p (by simp))
      exact (Tail.lead h₁ h₂ h₃ h₄).append (ih fun x hx => hps x (by simp [hx]))
  rw [Query.toks, queryParts]
  exact ((hpre.append hq).tail (hrest parts fun _ h => h)).tail htail

end Hesape.Sql
