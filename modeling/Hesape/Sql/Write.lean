import Hesape.Sql.Isolation

/-!
# Statements that change rows

An update or a delete names the rows it changes in one of three ways:

* `joined`: a condition over the table and the tables joined to it;
* `listed`: the same, the other tables listed after the set list and nothing joining them
  but the condition;
* `rowIds`: the engine's row identifier is among those a select returns.

`Write.Affects` says which rows of a table such a statement can change.  It reads an order or
a limit as leaving the engine free to change fewer rows.  A `rowIds` list that is one plain select
gives the identifiers of the rows that pass its condition; the members of a union bring columns
of their own, and the statement changes every row whose identifier is among the values returned.
`stays_of_impliesFilter` is the way from the text to the rows: when the condition implies
`label.column = value`, every row changed has that value.
-/

namespace Hesape.Sql

inductive Write (V : Type)
  /-- `targets` are the names of the tables whose rows change -/
  | joined (targets : List String) (pre : List (Tok V)) (src : Source V) (joins : List (Join V))
      (mid : List (Tok V)) (wheres : List (Conn × Cond V)) (tail : List (Tok V))
  | listed (pre : List (Tok V)) (src : Source V) (mid : List (Tok V)) (others : List (Source V))
      (wheres : List (Conn × Cond V))
  /-- the table's rows whose identifier, the column `id`, `q` selects -/
  | rowIds (id : String) (pre : List (Tok V)) (src : Source V) (mid : List (Tok V)) (q : Query V)

namespace Write

variable {V : Type}

def toks : Write V → List (Tok V)
  | joined _ pre src joins mid wheres tail =>
    pre ++ src.toks ++ (joinParts joins).flatMap (fun ts => .kw " " :: ts) ++ mid
      ++ after [.kw " where "] (joinClauses (clauseParts wheres)) ++ tail
  | listed pre src mid others wheres =>
    pre ++ src.toks ++ mid ++ after [.kw " from "] (commaSep (others.map Source.toks))
      ++ after [.kw " where "] (joinClauses (clauseParts wheres))
  | rowIds _ pre src mid q => pre ++ src.toks ++ mid ++ paren q.toks

/-- The names of the tables whose rows the statement changes. -/
def targets : Write V → List String
  | joined ts _ _ _ _ _ _ => ts
  | listed _ src _ _ _ => src.tableLabels
  | rowIds _ _ src _ _ => src.tableLabels

/-- The condition that picks the rows, where the statement has one. -/
def predicate : Write V → Option (List (Conn × Cond V))
  | joined _ _ _ _ _ wheres _ => some wheres
  | listed _ _ _ _ wheres => some wheres
  | rowIds _ _ _ _ (.select _ _ _ _ _ wheres _) => some wheres
  | rowIds _ _ _ _ (.compound _ _) => none

end Write

mutual

/-- The condition list of a query's own select, whatever is written around it. -/
def Query.own {V : Type} : Query V → List (Conn × Cond V)
  | .select _ _ _ _ _ wheres _ => wheres
  | .compound parts _ => firstOwn parts

def firstOwn {V : Type} : List (List (Tok V) × Query V) → List (Conn × Cond V)
  | [] => []
  | (_, q) :: _ => q.own

end

namespace Write

variable {V : Type}

/-- The condition list of a write's own select or of the write itself. -/
def own : Write V → List (Conn × Cond V)
  | joined _ _ _ _ _ wheres _ => wheres
  | listed _ _ _ _ wheres => wheres
  | rowIds _ _ _ _ q => q.own

section Meaning

variable [DecidableEq V] (I : Interp V) (D : Db V)

/-- Every combination of a left frame and the rows of the sources. -/
def crossFrames : List (Source V) → List (Frame V) → List (Frame V)
  | [], left => left
  | s :: r, left => crossFrames r (left.flatMap fun l => (s.eval I D []).map (l ++ ·))

/-- The frames the condition is read in. -/
def frames : Write V → List (Frame V)
  | joined _ _ src joins _ _ _ => joinsEval I D joins src.labels (src.eval I D []) []
  | listed _ src _ others _ => crossFrames I D others (src.eval I D [])
  | rowIds _ _ _ _ (.select _ _ src _ joins _ _) =>
    joinsEval I D joins (optLabels src) (optSourceEval I D src []) []
  | rowIds _ _ _ _ (.compound _ _) => []

/-- The row's identifier is among the values the list returns. -/
def Lists : Write V → Row V → Prop
  | rowIds id _ _ _ q, r => ∃ out ∈ q.eval I D [], ∃ c v, out c = some v ∧ r id = some v
  | _, _ => False

/-- The statement can change the row `r` of the table it knows as `label`. -/
def Affects (w : Write V) (label : String) (r : Row V) : Prop :=
  match w.predicate with
  | some cs => ∃ f ∈ w.frames I D, evalClauses id (clauseTruths I D cs [f]) = some true
      ∧ f.lookup label = some (some r)
  | none => w.Lists I D r

end Meaning

/-- The condition `label.col = v`, however it is spelt. -/
def IsFilter (col : String) (v : V) (label : String) (c : Cond V) : Prop :=
  ∃ ts, c = .atom (some (⟨some label, col⟩, v)) ts

/-- The statement's own condition keeps it on rows of its tables with `col = v`, whatever its
other conditions are worth. -/
def ImpliesFilter (col : String) (v : V) (w : Write V) : Prop :=
  ∀ label ∈ w.targets, ∃ cs, w.predicate = some cs ∧ Implies (IsFilter col v label) cs

/-- It changes no row but those with `col = v`, in any database. -/
def Stays [DecidableEq V] (col : String) (v : V) (w : Write V) : Prop :=
  ∀ (I : Interp V) (D : Db V), ∀ label ∈ w.targets, ∀ r, w.Affects I D label r → r col = some v

theorem evalClauses_clauseTruths [DecidableEq V] (I : Interp V) (D : Db V)
    (cs : List (Conn × Cond V)) (env : Env V) :
    evalClauses id (clauseTruths I D cs env) = evalClauses (fun c => c.eval I D env) cs := by
  have htail : ∀ (cs : List (Conn × Cond V)) (a : Truth),
      evalTail id a (clauseTruths I D cs env) = evalTail (fun c => c.eval I D env) a cs := by
    intro cs
    induction cs with
    | nil => intro a; rfl
    | cons p r ih =>
      intro a
      obtain ⟨k, c⟩ := p
      simp only [clauseTruths, evalTail, ih]
      rfl
  cases cs with
  | nil => rfl
  | cons p r =>
    obtain ⟨k, c⟩ := p
    exact htail r _

/-- A filter is true only of rows that pass it. -/
theorem row_of_isFilter [DecidableEq V] {I : Interp V} {D : Db V} {col label : String} {v : V}
    {c : Cond V} (hc : IsFilter col v label c) {f : Frame V} {r : Row V}
    (hf : f.lookup label = some (some r)) (h : c.eval I D [f] = some true) : r col = some v := by
  obtain ⟨_, rfl⟩ := hc
  have hfind : Env.find label [f] = some (some r) := by simp [Env.find, hf]
  simp only [Cond.eval, Env.value, hfind, Option.join_some, Option.bind_some] at h
  cases hr : r col with
  | none => simp [hr] at h
  | some =>
    simp only [hr, Option.map_some, Option.some.injEq, decide_eq_true_eq] at h
    rw [h]

/-- **From the text to the rows.** -/
theorem stays_of_impliesFilter [DecidableEq V] {col : String} {v : V} {w : Write V}
    (h : w.ImpliesFilter col v) : w.Stays col v := by
  intro I D label hl r hr
  obtain ⟨_, hcs, himp⟩ := h label hl
  unfold Affects at hr
  rw [hcs] at hr
  obtain ⟨f, -, htrue, hf⟩ := hr
  rw [evalClauses_clauseTruths] at htrue
  obtain ⟨c, hc, hev⟩ := himp _ htrue
  exact row_of_isFilter hc hf hev

end Write

end Hesape.Sql
