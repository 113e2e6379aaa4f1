import Hesape.Sql.Alignment
import Hesape.Sql.Write

/-!
# Statements and the values sent with them

An engine is sent a text and a list of values, and reads the text with the first value at its
first placeholder, the second at its second, and so on.  `fill` puts the values into a statement
that way, part by part in the order the parts are printed; a comparison of a column with a value
becomes one with the value that now stands there.  A list of another length than the text has
placeholders is refused (`Query.sent`, `Write.sent`).

When the list is the one the text was written for, sending changes nothing (`Query.sent_eq`,
`Write.sent_eq`).
-/

namespace Hesape.Sql

open List

variable {V : Type}

/-! ### Filling -/

/-- Reads values off the list that was sent. -/
abbrev Filling (V A : Type) := StateM (List V) A

/-- The next `n` values. -/
def next (n : Nat) : Filling V (List V) := fun bs => (bs.take n, bs.drop n)

def Tok.fill : Tok V → Filling V (Tok V)
  | op s => (fun _ => op s) <$> next (marks s)
  | param v => (fun bs => param (bs.headD v)) <$> next 1
  | raw s args => (fun bs => raw s (bs ++ args.drop (marks s))) <$> next (marks s)
  | t => pure t

/-- The members of a list, one after another. -/
def fillEach {A : Type} (fill : A → Filling V A) : List A → Filling V (List A)
  | [] => pure []
  | a :: l => cons <$> fill a <*> fillEach fill l

def fillToks : List (Tok V) → Filling V (List (Tok V)) := fillEach Tok.fill

/-- The value that stands in `us` where `ts` has the placeholder of `v`. -/
def reread [DecidableEq V] (v : V) : List (Tok V) → List (Tok V) → V
  | .param w :: ts, .param w' :: us => if w = v then w' else reread v ts us
  | _ :: ts, _ :: us => reread v ts us
  | _, _ => v

section Fill

variable [DecidableEq V]

mutual

def Cond.fill : Cond V → Filling V (Cond V)
  | .atom eq ts => (fun us => .atom (eq.map fun e => (e.1, reread e.2 ts us)) us) <$> fillToks ts
  | .group cs => .group <$> fillClauses cs
  | .sub pre q post => .sub <$> fillToks pre <*> q.fill <*> fillToks post

def fillClauses : List (Conn × Cond V) → Filling V (List (Conn × Cond V))
  | [] => pure []
  | (k, c) :: r => (fun c r => (k, c) :: r) <$> c.fill <*> fillClauses r

def Source.fill : Source V → Filling V (Source V)
  | .table name label ts => .table name label <$> fillToks ts
  | .derived pre q post label =>
    (fun pre q post => .derived pre q post label) <$> fillToks pre <*> q.fill <*> fillToks post
  | .raw ts => .raw <$> fillToks ts

def fillOpt : Option (Source V) → Filling V (Option (Source V))
  | none => pure none
  | some s => some <$> s.fill

def Join.fill : Join V → Filling V (Join V)
  | .on kind pre src nested cs =>
    .on kind <$> fillToks pre <*> src.fill <*> fillJoins nested <*> fillClauses cs
  | .lateral kind pre src nested post =>
    .lateral kind <$> fillToks pre <*> src.fill <*> fillJoins nested <*> fillToks post
  | .text ts => .text <$> fillToks ts

def fillJoins : List (Join V) → Filling V (List (Join V))
  | [] => pure []
  | j :: r => cons <$> j.fill <*> fillJoins r

def Item.fill : Item V → Filling V (Item V)
  | .text ts => .text <$> fillToks ts
  | .sub pre q post => .sub <$> fillToks pre <*> q.fill <*> fillToks post

def fillItems : List (Item V) → Filling V (List (Item V))
  | [] => pure []
  | i :: r => cons <$> i.fill <*> fillItems r

def Query.fill : Query V → Filling V (Query V)
  | .select head items src hint joins wheres tail =>
    .select <$> fillToks head <*> fillItems items <*> fillOpt src <*> fillToks hint
      <*> fillJoins joins <*> fillClauses wheres <*> fillToks tail
  | .compound parts tail => .compound <$> fillQueries parts <*> fillToks tail

def fillQueries : List (List (Tok V) × Query V) → Filling V (List (List (Tok V) × Query V))
  | [] => pure []
  | (pre, q) :: r => (fun pre q r => (pre, q) :: r) <$> fillToks pre <*> q.fill <*> fillQueries r

end

def Write.fill : Write V → Filling V (Write V)
  | .joined targets pre src joins mid wheres tail =>
    .joined targets <$> fillToks pre <*> src.fill <*> fillJoins joins <*> fillToks mid
      <*> fillClauses wheres <*> fillToks tail
  | .listed pre src mid others wheres =>
    .listed <$> fillToks pre <*> src.fill <*> fillToks mid <*> fillEach Source.fill others
      <*> fillClauses wheres
  | .rowIds id pre src mid q => .rowIds id <$> fillToks pre <*> src.fill <*> fillToks mid <*> q.fill

/-- The query an engine reads in the text and the values. -/
def Query.sent (q : Query V) (bs : List V) : Option (Query V) :=
  if (placeholders q.toks).length = bs.length then some (q.fill bs).1 else none

def Write.sent (w : Write V) (bs : List V) : Option (Write V) :=
  if (placeholders w.toks).length = bs.length then some (w.fill bs).1 else none

end Fill

/-! ### Values in their own places -/

/-- Filling the placeholders `ps` with the values they were written for gives `a`. -/
def Keeps {A : Type} (f : Filling V A) (a : A) (ps : List (Option V)) : Prop :=
  ∀ bs r, ps = bs.map some → f (bs ++ r) = (a, r)

section Keeps

variable {A B : Type} {ps qs : List (Option V)}

theorem keeps_pure (a : A) : Keeps (pure a : Filling V A) a [] := by
  intro bs r h
  rw [eq_comm, map_eq_nil_iff] at h
  subst h
  rfl

theorem Keeps.map {x : Filling V A} {a : A} (h : Keeps x a ps) (f : A → B) : Keeps (f <$> x) (f a) ps := by
  intro bs r hp
  show (f (x (bs ++ r)).1, (x (bs ++ r)).2) = _
  rw [h bs r hp]

theorem Keeps.ap {f : Filling V (A → B)} {g : A → B} (hf : Keeps f g ps) {x : Filling V A} {a : A}
    (hx : Keeps x a qs) : Keeps (f <*> x) (g a) (ps ++ qs) := by
  intro bs r hp
  obtain ⟨b, c, rfl, hb, hc⟩ := map_eq_append_iff.mp hp.symm
  rw [append_assoc]
  show ((f (b ++ (c ++ r))).1 (x (f (b ++ (c ++ r))).2).1, (x (f (b ++ (c ++ r))).2).2) = _
  rw [hf b _ hb.symm, hx c r hc.symm]

theorem keeps_next {l : List V} {n : Nat} (h : l.length = n) : Keeps (next n) l (l.map some) := by
  intro bs r hp
  obtain rfl := map_inj_right (fun _ _ => Option.some.inj) |>.mp hp
  subst h
  simp [next]

theorem keeps_tok (t : Tok V) : Keeps t.fill t t.placeholders := by
  cases t with
  | kw | num | quoted => exact keeps_pure _
  | param v => exact (keeps_next (l := [v]) rfl).map _
  | op s =>
    intro bs r hp
    -- No value was written for a mark of an operator.
    have hm : marks s = 0 ∧ bs = [] := by
      cases bs with
      | nil => simpa [Tok.placeholders] using hp
      | cons b bs => cases hm : marks s <;> simp [Tok.placeholders, hm, replicate_succ] at hp
    obtain ⟨hm, rfl⟩ := hm
    simp only [Tok.fill, hm]
    rfl
  | raw s args =>
    intro bs r hp
    simp only [Tok.placeholders] at hp
    have hlen : bs.length = marks s := by simpa using (congrArg length hp).symm
    have hargs : bs ++ args.drop (marks s) = args := by
      have htake : bs = args.take (marks s) := by
        refine ext_getElem? fun i => ?_
        have := congrArg (·[i]?) hp
        by_cases hi : i < marks s
        · obtain ⟨a, hb, ha⟩ : ∃ a, some a = bs[i]? ∧ some a = args[i]? := by
            simpa [hi, eq_comm] using this
          rw [getElem?_take_of_lt hi, ← ha, ← hb]
        · rw [getElem?_eq_none (by omega), getElem?_eq_none (by simp; omega)]
      rw [htake, take_append_drop]
    have hnext := (keeps_next hlen).map (fun bs => Tok.raw s (bs ++ args.drop (marks s))) bs r rfl
    rwa [hargs] at hnext

theorem keeps_each {fill : A → Filling V A} {ps : A → List (Option V)} {l : List A}
    (h : ∀ a ∈ l, Keeps (fill a) a (ps a)) : Keeps (fillEach fill l) l (l.flatMap ps) := by
  induction l with
  | nil => exact keeps_pure _
  | cons a l ih =>
    exact ((h a mem_cons_self).map _).ap (ih fun b hb => h b (mem_cons_of_mem _ hb))

theorem keeps_toks (ts : List (Tok V)) : Keeps (fillToks ts) ts (placeholders ts) :=
  keeps_each fun t _ => keeps_tok t

end Keeps

theorem reread_self [DecidableEq V] (v : V) (ts : List (Tok V)) : reread v ts ts = v := by
  induction ts with
  | nil => rfl
  | cons t ts ih =>
    cases t with
    | param w =>
      rw [reread]
      split
      · assumption
      · exact ih
    | _ => exact ih

/-! ### The parts of a statement -/

section Parts

variable [DecidableEq V]

mutual

theorem Cond.keeps : ∀ c : Cond V, Keeps c.fill c (placeholders c.toks)
  | .atom eq ts => by
    have h := (keeps_toks ts).map fun us => Cond.atom (eq.map fun e => (e.1, reread e.2 ts us)) us
    simp only [reread_self, Prod.eta, Option.map_id'] at h
    exact h
  | .group cs => by
    rw [Cond.toks, placeholders_paren, placeholders_joinClauses]
    exact (keeps_clauses cs).map _
  | .sub pre q post => by
    rw [Cond.toks, placeholders_append, placeholders_append, placeholders_paren]
    exact (((keeps_toks pre).map _).ap q.keeps).ap (keeps_toks post)

theorem keeps_clauses : ∀ cs : List (Conn × Cond V),
    Keeps (fillClauses cs) cs ((clauseParts cs).flatMap fun p => placeholders p.2)
  | [] => keeps_pure _
  | (_, c) :: r => (c.keeps.map _).ap (keeps_clauses r)

theorem Source.keeps : ∀ s : Source V, Keeps s.fill s (placeholders s.toks)
  | .table _ _ ts => (keeps_toks ts).map _
  | .derived pre q post _ => by
    rw [Source.toks, placeholders_append, placeholders_append, placeholders_paren]
    exact (((keeps_toks pre).map _).ap q.keeps).ap (keeps_toks post)
  | .raw ts => (keeps_toks ts).map _

theorem keeps_opt : ∀ s : Option (Source V), Keeps (fillOpt s) s (placeholders (optSourceToks s))
  | none => keeps_pure _
  | some s => s.keeps.map _

theorem Join.keeps : ∀ j : Join V, Keeps j.fill j (placeholders j.toks)
  | .on _ pre src nested cs => by
    rw [Join.toks, placeholders_append, placeholders_append, placeholders_nestedToks,
      placeholders_after rfl, placeholders_joinClauses, ← append_assoc]
    exact ((((keeps_toks pre).map _).ap src.keeps).ap (keeps_joins nested)).ap (keeps_clauses cs)
  | .lateral _ pre src nested post => by
    rw [Join.toks, placeholders_append, placeholders_append, placeholders_nestedToks, ← append_assoc]
    exact ((((keeps_toks pre).map _).ap src.keeps).ap (keeps_joins nested)).ap (keeps_toks post)
  | .text ts => (keeps_toks ts).map _

theorem keeps_joins : ∀ js : List (Join V),
    Keeps (fillJoins js) js ((joinParts js).flatMap placeholders)
  | [] => keeps_pure _
  | j :: r => (j.keeps.map _).ap (keeps_joins r)

theorem Item.keeps : ∀ i : Item V, Keeps i.fill i (placeholders i.toks)
  | .text ts => (keeps_toks ts).map _
  | .sub pre q post => by
    rw [Item.toks, placeholders_append, placeholders_append, placeholders_paren]
    exact (((keeps_toks pre).map _).ap q.keeps).ap (keeps_toks post)

theorem keeps_items : ∀ is : List (Item V),
    Keeps (fillItems is) is ((itemParts is).flatMap placeholders)
  | [] => keeps_pure _
  | i :: r => (i.keeps.map _).ap (keeps_items r)

theorem Query.keeps : ∀ q : Query V, Keeps q.fill q (placeholders q.toks)
  | .select head items src hint joins wheres tail => by
    simp only [Query.toks, placeholders_append, placeholders_commaSep, placeholders_spaced]
    rw [placeholders_after rfl, placeholders_joinClauses]
    exact (((((((keeps_toks head).map _).ap (keeps_items items)).ap (keeps_opt src)).ap
      (keeps_toks hint)).ap (keeps_joins joins)).ap (keeps_clauses wheres)).ap (keeps_toks tail)
  | .compound parts tail => by
    rw [Query.toks, placeholders_append]
    exact ((keeps_queries parts).map _).ap (keeps_toks tail)

theorem keeps_queries : ∀ ps : List (List (Tok V) × Query V),
    Keeps (fillQueries ps) ps (placeholders (queryParts ps))
  | [] => keeps_pure _
  | (pre, q) :: r => by
    rw [queryParts, placeholders_append, placeholders_append]
    exact (((keeps_toks pre).map _).ap q.keeps).ap (keeps_queries r)

end

theorem Write.keeps (w : Write V) : Keeps w.fill w (placeholders w.toks) := by
  cases w with
  | joined _ pre src joins mid wheres tail =>
    simp only [Write.toks, placeholders_append, placeholders_spaced]
    rw [placeholders_after rfl, placeholders_joinClauses]
    exact ((((((keeps_toks pre).map _).ap src.keeps).ap (keeps_joins joins)).ap (keeps_toks mid)).ap
      (keeps_clauses wheres)).ap (keeps_toks tail)
  | listed pre src mid others wheres =>
    simp only [Write.toks, placeholders_append]
    rw [placeholders_after rfl, placeholders_after rfl, placeholders_joinClauses, placeholders_commaSep,
      flatMap_map]
    exact (((((keeps_toks pre).map _).ap src.keeps).ap (keeps_toks mid)).ap
      (keeps_each fun s _ => s.keeps)).ap (keeps_clauses wheres)
  | rowIds _ pre src mid q =>
    simp only [Write.toks, placeholders_append, placeholders_paren]
    exact ((((keeps_toks pre).map _).ap src.keeps).ap (keeps_toks mid)).ap q.keeps

/-- **A text sent the values it was written for means what was written.** -/
theorem Query.sent_eq {q : Query V} {bs : List V} (h : Aligned q.toks bs) : q.sent bs = some q := by
  have hfill := q.keeps bs [] h
  rw [append_nil] at hfill
  rw [Query.sent, if_pos (by rw [h, length_map]), hfill]

theorem Write.sent_eq {w : Write V} {bs : List V} (h : Aligned w.toks bs) : w.sent bs = some w := by
  have hfill := w.keeps bs [] h
  rw [append_nil] at hfill
  rw [Write.sent, if_pos (by rw [h, length_map]), hfill]

end Parts

end Hesape.Sql
