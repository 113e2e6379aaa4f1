import Hesape.Sql.Write

/-!
# What a condition list entails

`Implies` takes the conditions of a line as they stand.  Here a parenthesised group counts by
what is in it: a line entails a condition when, whatever the comparisons in it are worth, it is
true only when that condition is.

For lines without `not` there is one case to look at.  Such a line can only gain from a
comparison turning true, so it entails `p` exactly when it is not true with the comparisons of
`p` false and all others true.  `Cond.names` is that case written as a condition on the text:
every block names `p`, itself or in a group whose blocks all do.
-/

namespace Hesape.Sql

open List

variable {V : Type}

/-! ### The truth of a group by its members -/

mutual

/-- The truth of a condition when its comparisons and subqueries are worth `ev`. -/
def Cond.worth (ev : Cond V → Truth) : Cond V → Truth
  | .atom e ts => ev (.atom e ts)
  | .group cs => evalClauses id (worths ev cs)
  | .sub pre q post => ev (.sub pre q post)

def worths (ev : Cond V → Truth) : List (Conn × Cond V) → List (Conn × Truth)
  | [] => []
  | (k, c) :: r => (k, c.worth ev) :: worths ev r

end

/-- The line is true only when one of the conditions in `p` is. -/
def Entails (p : Cond V → Bool) (cs : List (Conn × Cond V)) : Prop :=
  ∀ ev : Cond V → Truth, evalClauses id (worths ev cs) = some true → ∃ c, p c = true ∧ ev c = some true

mutual

/-- No `not` anywhere. -/
def Cond.positive : Cond V → Bool
  | .atom _ _ => true
  | .group cs => allPositive cs
  | .sub _ _ _ => true

def allPositive : List (Conn × Cond V) → Bool
  | [] => true
  | (k, c) :: r => !k.neg && c.positive && allPositive r

end

/-- Every block has a member that is marked. -/
def everyBlock (l : List (Conn × Bool)) : Bool := (blocks l).all (·.any Prod.snd)

mutual

/-- The condition is true only when one in `p` is, by its text. -/
def Cond.names (p : Cond V → Bool) : Cond V → Bool
  | .atom e ts => p (.atom e ts)
  | .group cs => everyBlock (namesAll p cs)
  | .sub pre q post => p (.sub pre q post)

def namesAll (p : Cond V → Bool) : List (Conn × Cond V) → List (Conn × Bool)
  | [] => []
  | (k, c) :: r => (k, c.names p) :: namesAll p r

end

theorem worths_eq (ev : Cond V → Truth) (cs : List (Conn × Cond V)) :
    worths ev cs = cs.map (Prod.map id (Cond.worth ev)) := by
  induction cs with
  | nil => rfl
  | cons q r ih => rw [worths, ih]; rfl

theorem namesAll_eq (p : Cond V → Bool) (cs : List (Conn × Cond V)) :
    namesAll p cs = cs.map (Prod.map id (Cond.names p)) := by
  induction cs with
  | nil => rfl
  | cons q r ih => rw [namesAll, ih]; rfl

theorem allPositive_iff (cs : List (Conn × Cond V)) :
    allPositive cs ↔ ∀ q ∈ cs, q.1.neg = false ∧ q.2.positive := by
  induction cs with
  | nil => simp [allPositive]
  | cons q r ih => simp [allPositive, ih, and_assoc]

/-! ### The case that decides -/

/-- A line of marks, read with what is marked false and the rest true. -/
theorem evalTail_marks : ∀ (r cur : List (Conn × Bool)), (∀ q ∈ r, q.1.neg = false) →
    evalTail (fun m : Bool => some (!m)) (some (!cur.any Prod.snd)) r
      = some (!(blocksFrom cur r).all (·.any Prod.snd)) := by
  intro r
  induction r with
  | nil => intro cur _; simp [evalTail, blocksFrom]
  | cons q r ih =>
    intro cur hneg
    obtain ⟨k, m⟩ := q
    have hk : k.neg = false := hneg (k, m) (by simp)
    have hr : ∀ q ∈ r, q.1.neg = false := fun q hq => hneg q (by simp [hq])
    by_cases hd : k.disj
    · have hrest := ih [(k, m)] hr
      simp only [any_cons, any_nil, Bool.or_false] at hrest
      rw [evalTail, if_pos hd, Conn.sign_of_not_neg hk, hrest, blocksFrom, if_pos hd, all_cons]
      cases cur.any Prod.snd <;> cases (blocksFrom [(k, m)] r).all (·.any Prod.snd) <;> rfl
    · have hrest := ih (cur ++ [(k, m)]) hr
      rw [any_append, any_cons, any_nil, Bool.or_false] at hrest
      rw [evalTail, if_neg hd, Conn.sign_of_not_neg hk, blocksFrom, if_neg hd, ← hrest]
      congr 1
      cases cur.any Prod.snd <;> cases m <;> rfl

theorem evalClauses_marks {l : List (Conn × Bool)} (hneg : ∀ q ∈ l, q.1.neg = false) :
    evalClauses (fun m : Bool => some (!m)) l = some (!everyBlock l) := by
  cases l with
  | nil => rfl
  | cons q r =>
    obtain ⟨k, m⟩ := q
    have h := evalTail_marks r [(k, m)] fun q hq => hneg q (by simp [hq])
    simp only [any_cons, any_nil, Bool.or_false] at h
    rw [evalClauses, Conn.sign_of_not_neg (hneg (k, m) (by simp)), h]
    rfl

/-- What is in `p` false, the rest true. -/
def against (p : Cond V → Bool) (c : Cond V) : Truth := some (!p c)

variable {p : Cond V → Bool} {cs : List (Conn × Cond V)}

theorem worths_against
    (h : ∀ q ∈ cs, q.2.worth (against p) = some (!q.2.names p)) :
    worths (against p) cs = (namesAll p cs).map (Prod.map id fun m : Bool => some (!m)) := by
  rw [worths_eq, namesAll_eq, map_map]
  refine map_congr_left fun q hq => ?_
  show (q.1, q.2.worth (against p)) = (q.1, some (!q.2.names p))
  rw [h q hq]

theorem evalClauses_map_id {C : Type*} (ev : C → Truth) (cs : List (Conn × C)) :
    evalClauses id (cs.map (Prod.map id ev)) = evalClauses ev cs := by
  have htail : ∀ (cs : List (Conn × C)) (a : Truth),
      evalTail id a (cs.map (Prod.map id ev)) = evalTail ev a cs := by
    intro cs
    induction cs with
    | nil => intro a; rfl
    | cons q r ih => intro a; simp [evalTail, ih]
  cases cs with
  | nil => rfl
  | cons q r => exact htail r _

mutual

/-- Against it, a condition without `not` is false exactly when it names `p`. -/
theorem Cond.worth_against (p : Cond V → Bool) : ∀ c : Cond V, c.positive →
    c.worth (against p) = some (!c.names p)
  | .atom _ _, _ => rfl
  | .sub _ _ _, _ => rfl
  | .group cs, h => by
    rw [Cond.positive] at h
    have hneg : ∀ q ∈ namesAll p cs, q.1.neg = false := by
      intro q hq
      rw [namesAll_eq] at hq
      obtain ⟨c, hc, rfl⟩ := mem_map.mp hq
      exact ((allPositive_iff cs).mp h c hc).1
    rw [Cond.worth, worths_against (all_worth_against p cs h), evalClauses_map_id,
      evalClauses_marks hneg, Cond.names]

theorem all_worth_against (p : Cond V → Bool) : ∀ cs : List (Conn × Cond V), allPositive cs →
    ∀ q ∈ cs, q.2.worth (against p) = some (!q.2.names p)
  | [], _ => by simp
  | (k, c) :: r, h => by
    simp only [allPositive, Bool.and_eq_true] at h
    intro q hq
    rcases mem_cons.mp hq with rfl | hq
    · exact Cond.worth_against p c h.1.2
    · exact all_worth_against p r h.2 q hq

end

/-- In a true line one block is true, and where every block names `p` so does this one. -/
theorem exists_of_everyBlock {ev : Cond V → Truth}
    (hpos : allPositive cs)
    (h : ∀ q ∈ cs, q.2.names p → q.2.worth ev = some true → ∃ c, p c ∧ ev c = some true)
    (hnames : everyBlock (namesAll p cs)) (htrue : evalClauses id (worths ev cs) = some true) :
    ∃ c, p c ∧ ev c = some true := by
  rw [worths_eq, evalClauses_map_id] at htrue
  obtain ⟨b, hb, hall⟩ := evalClauses_eq_true_iff.mp htrue
  rw [everyBlock, namesAll_eq, blocks_map, all_map, all_eq_true] at hnames
  obtain ⟨m, hm, hmark⟩ := any_eq_true.mp (hnames b hb)
  obtain ⟨q, hq, rfl⟩ := mem_map.mp hm
  have hqs := mem_blocks hb q hq
  have hworth := hall q hq
  rw [Conn.sign_of_not_neg ((allPositive_iff cs).mp hpos q hqs).1] at hworth
  exact h q hqs hmark hworth

mutual

/-- A condition that names `p` is true only when one in `p` is. -/
theorem Cond.exists_of_names (p : Cond V → Bool) (ev : Cond V → Truth) : ∀ c : Cond V,
    c.positive → c.names p → c.worth ev = some true → ∃ c, p c ∧ ev c = some true
  | .atom _ _, _, hp, hw => ⟨_, hp, hw⟩
  | .sub _ _ _, _, hp, hw => ⟨_, hp, hw⟩
  | .group cs, h, hp, hw => exists_of_everyBlock h (all_exists_of_names p ev cs h) hp hw

theorem all_exists_of_names (p : Cond V → Bool) (ev : Cond V → Truth) : ∀ cs : List (Conn × Cond V),
    allPositive cs → ∀ q ∈ cs, q.2.names p → q.2.worth ev = some true →
      ∃ c, p c ∧ ev c = some true
  | [], _ => by simp
  | (k, c) :: r, h => by
    simp only [allPositive, Bool.and_eq_true] at h
    intro q hq hp hw
    rcases mem_cons.mp hq with rfl | hq
    · exact Cond.exists_of_names p ev c h.1.2 hp hw
    · exact all_exists_of_names p ev r h.2 q hq hp hw

end

/-! ### A line that goes on after a conjunction -/

/-- Every alternative has a member that is marked. -/
def everyAlternative (l : List (Conn × Bool)) : Bool := (alternatives l).all (·.any Prod.snd)

/-- **A conjunction that has `p`, and what comes after it**: the whole line entails `p` exactly
when every alternative opened after the conjunction names it. -/
theorem entails_append_iff {base : List (Conn × Cond V)} (hbase : Conj base)
    {e : Option (ColRef × V)} {ts : List (Tok V)} (hmem : (Conn.and, Cond.atom e ts) ∈ base)
    (hp : p (.atom e ts)) (hpos : allPositive cs) :
    Entails p (base ++ cs) ↔ everyAlternative (namesAll p cs) := by
  obtain ⟨x, -, hblocks⟩ : ∃ x, (∀ q ∈ x, q ∈ cs) ∧ blocks (base ++ cs) = (base ++ x) :: alternatives cs :=
    blocks_append hbase (ne_nil_of_mem hmem)
  rw [everyAlternative, namesAll_eq, alternatives_map, all_map, all_eq_true]
  constructor
  · intro h b hb
    by_contra hno
    -- Against `p` this alternative is true, and with it the line.
    have htrue : evalClauses id (worths (against p) (base ++ cs)) = some true := by
      rw [worths_eq, evalClauses_map_id, evalClauses_eq_true_iff]
      refine ⟨b, by rw [hblocks]; exact mem_cons_of_mem _ hb, fun q hq => ?_⟩
      have hqs := mem_alternatives hb q hq
      have hnot : q.2.names p = false := by
        by_contra hn
        refine hno (any_eq_true.mpr ⟨_, mem_map_of_mem hq, ?_⟩)
        simpa using hn
      rw [Conn.sign_of_not_neg ((allPositive_iff cs).mp hpos q hqs).1,
        all_worth_against p cs hpos q hqs, hnot]
      rfl
    obtain ⟨c, hc, hev⟩ := h _ htrue
    simp [against, hc] at hev
  · intro h ev htrue
    rw [worths_eq, evalClauses_map_id] at htrue
    obtain ⟨b, hb, hall⟩ := evalClauses_eq_true_iff.mp htrue
    rw [hblocks] at hb
    rcases mem_cons.mp hb with rfl | hb
    · have := hall _ (mem_append_left _ hmem)
      exact ⟨_, hp, this⟩
    · obtain ⟨m, hm, hmark⟩ := any_eq_true.mp (h b hb)
      obtain ⟨q, hq, rfl⟩ := mem_map.mp hm
      have hqs := mem_alternatives hb q hq
      have hworth := hall q hq
      rw [Conn.sign_of_not_neg ((allPositive_iff cs).mp hpos q hqs).1] at hworth
      exact all_exists_of_names p ev cs hpos q hqs hmark hworth

/-- Conditions in conjunction at the end that are not in `p` make no difference. -/
theorem everyAlternative_append_conj {l m : List (Conn × Bool)} (hm : Conj m)
    (hno : ∀ q ∈ m, q.2 = false) : everyAlternative (l ++ m) = everyAlternative l := by
  have h := names_append_conj (p := fun x : Bool => x) hm (fun q hq => by simp [hno q hq])
  rw [Bool.eq_iff_iff, everyAlternative, everyAlternative]
  simp only [all_eq_true, any_eq_true]
  induction l with
  | nil => simp [alternatives, blocksFrom_conj m [] hm, blocksFrom]
  | cons q l ih =>
    by_cases hq : q.1.disj
    · simp only [alternatives, cons_append, blocksFrom, if_pos hq, tail_cons]
      exact h l [q]
    · obtain ⟨x, -, hx⟩ := blocksFrom_eq (l ++ m) ([] ++ [q])
      obtain ⟨y, -, hy⟩ := blocksFrom_eq l ([] ++ [q])
      rw [alternatives, cons_append, blocksFrom, if_neg hq, hx, tail_cons, ih, alternatives,
        alternatives, blocksFrom, if_neg hq, hy, tail_cons, alternatives]

/-! ### Rows -/

/-- The condition reads `c = v`. -/
def Cond.compares [DecidableEq V] (c : ColRef) (v : V) : Cond V → Bool
  | .atom (some (c', v')) _ => c' = c && v' = v
  | _ => false

mutual

theorem Cond.worth_eval [DecidableEq V] (I : Interp V) (D : Db V) (env : Env V) : ∀ c : Cond V,
    c.worth (fun c => c.eval I D env) = c.eval I D env
  | .atom _ _ => rfl
  | .sub _ _ _ => rfl
  | .group cs => by rw [Cond.worth, Cond.eval, worths_eval I D env cs]

theorem worths_eval [DecidableEq V] (I : Interp V) (D : Db V) (env : Env V) :
    ∀ cs : List (Conn × Cond V), worths (fun c => c.eval I D env) cs = clauseTruths I D cs env
  | [] => rfl
  | (k, c) :: r => by rw [worths, clauseTruths, Cond.worth_eval I D env c, worths_eval I D env r]

end

/-- **From the text to the rows**: a row that passes has the value. -/
theorem value_of_entails [DecidableEq V] {c : ColRef} {v : V}
    (h : Entails (Cond.compares c v) cs) (I : Interp V) (D : Db V) (env : Env V)
    (htrue : evalClauses id (clauseTruths I D cs env) = some true) : env.value I c = some v := by
  rw [← worths_eval] at htrue
  obtain ⟨d, hd, hev⟩ := h _ htrue
  unfold Cond.compares at hd
  split at hd
  · next c' v' ts =>
    simp only [Bool.and_eq_true, decide_eq_true_eq] at hd
    obtain ⟨rfl, rfl⟩ := hd
    rw [Cond.eval] at hev
    obtain ⟨w, hw, hval⟩ := Option.map_eq_some_iff.mp hev
    rw [hw, of_decide_eq_true hval]
  · cases hd

end Hesape.Sql
