import Hesape.Sql.Syntax
import Mathlib.Data.List.Nodup

/-!
# What a query returns

Rows are functions from column names to values, a frame is the row each source of a
select contributes at one moment of the join (`none` for the all-null row an outer
join pads with), and an environment is the stack of frames of the enclosing
selects.  Sources, joins and conditions are given their usual meaning.  What the
engine does with the rows that pass `where` (projection, grouping, ordering, limits),
how it reads an atom that is not `column = value`, and how it combines the members of a
compound are left to an `Interp`: anything proved holds for every one.

`Query.accepted` is the check an engine makes before it runs anything: the sources of
one select have different names.  `Query.run` runs an accepted query.
-/

namespace Hesape.Sql

abbrev Row (V : Type) := String → Option V

/-- The rows of every table. -/
abbrev Db (V : Type) := String → List (Row V)

/-- The row each source contributes, by the name the source goes under. -/
abbrev Frame (V : Type) := List (String × Option (Row V))

/-- The frames of a select and of those around it, innermost first. -/
abbrev Env (V : Type) := List (Frame V)

/-- The text of a select outside its sources and conditions. -/
structure SelectText (V : Type) where
  head : List (Tok V)
  items : List (List (Tok V))
  hint : List (Tok V)
  tail : List (Tok V)

/-- The engine's part of the meaning. -/
structure Interp (V : Type) where
  /-- the value of an unqualified column -/
  bare : String → Env V → Option V
  atom : List (Tok V) → Env V → Truth
  /-- a condition around a subquery, given the subquery's rows -/
  sub : List (Tok V) → List (Tok V) → List (Row V) → Env V → Truth
  /-- a source nobody has looked into -/
  raw : List (Tok V) → Db V → Env V → List (Frame V)
  finish : SelectText V → List (Frame V × List (List (Row V))) → Env V → List (Row V)
  compound : List (List (Tok V) × List (Row V)) → List (Tok V) → Env V → List (Row V)

variable {V : Type}

/-- The row of a source, looked for from the innermost select outwards. -/
def Env.find (label : String) : Env V → Option (Option (Row V))
  | [] => none
  | f :: env =>
    match f.lookup label with
    | some r => some r
    | none => Env.find label env

/-- The value of a column; a column of a missing or padded row is null. -/
def Env.value (I : Interp V) (c : ColRef) (env : Env V) : Option V :=
  match c.qualifier with
  | none => I.bare c.name env
  | some q => ((Env.find q env).join).bind fun r => r c.name

/-- The all-null row of an outer join, one for every source of the missing side. -/
def nulls (labels : List String) : Frame V := labels.map fun l => (l, none)

/-- The matches of a row, or the padded row when there are none and the join pads. -/
def padOr (pad : Bool) (null : Frame V) (found : List (Frame V)) : List (Frame V) :=
  if pad && found.isEmpty then [null] else found

/-- One left frame with its matches on the right. -/
def extend (pad : Bool) (labels : List String) (right : List (Frame V)) (ok : Frame V → Bool)
    (l : Frame V) : List (Frame V) :=
  padOr pad (l ++ nulls labels) ((right.filter fun r => ok (l ++ r)).map (l ++ ·))

/-- One right frame with its matches on the left. -/
def extendLeft (labels : List String) (left : List (Frame V)) (ok : Frame V → Bool)
    (r : Frame V) : List (Frame V) :=
  padOr true (nulls labels ++ r) ((left.filter fun l => ok (l ++ r)).map (· ++ r))

def joinFrames (kind : JoinKind) (ls : List String) (left : List (Frame V)) (rs : List String)
    (right : List (Frame V)) (ok : Frame V → Bool) : List (Frame V) :=
  match kind with
  | .left => left.flatMap (extend true rs right ok)
  | .right => right.flatMap (extendLeft ls left ok)
  | .inner | .cross | .straight => left.flatMap (extend false rs right ok)

/-! ### Names -/

def Source.labels : Source V → List String
  | .table _ label _ => [label]
  | .derived _ _ _ label => [label]
  | .raw _ => []

/-- The name of a source that is a stored table. -/
def Source.tableLabels : Source V → List String
  | .table _ label _ => [label]
  | _ => []

mutual

def Join.labels : Join V → List String
  | .on _ _ src nested _ => src.labels ++ joinsLabels nested
  | .lateral _ _ src nested _ => src.labels ++ joinsLabels nested
  | .text _ => []

def joinsLabels : List (Join V) → List String
  | [] => []
  | j :: r => j.labels ++ joinsLabels r

end

mutual

def Join.tableLabels : Join V → List String
  | .on _ _ src nested _ => src.tableLabels ++ joinsTableLabels nested
  | .lateral _ _ src nested _ => src.tableLabels ++ joinsTableLabels nested
  | .text _ => []

def joinsTableLabels : List (Join V) → List String
  | [] => []
  | j :: r => j.tableLabels ++ joinsTableLabels r

end

def optLabels (src : Option (Source V)) : List String := (src.map Source.labels).getD []

def optTableLabels (src : Option (Source V)) : List String := (src.map Source.tableLabels).getD []

mutual

def Cond.accepted : Cond V → Bool
  | .atom _ _ => true
  | .group cs => clausesAccepted cs
  | .sub _ q _ => q.accepted

def clausesAccepted : List (Conn × Cond V) → Bool
  | [] => true
  | (_, c) :: r => c.accepted && clausesAccepted r

def Source.accepted : Source V → Bool
  | .table _ _ _ => true
  | .derived _ q _ _ => q.accepted
  | .raw _ => true

def optAccepted : Option (Source V) → Bool
  | none => true
  | some s => s.accepted

def Join.accepted : Join V → Bool
  | .on _ _ src nested cs => src.accepted && joinsAccepted nested && clausesAccepted cs
  | .lateral _ _ src nested _ => src.accepted && joinsAccepted nested
  | .text _ => false

def joinsAccepted : List (Join V) → Bool
  | [] => true
  | j :: r => j.accepted && joinsAccepted r

def Item.accepted : Item V → Bool
  | .text _ => true
  | .sub _ q _ => q.accepted

def itemsAccepted : List (Item V) → Bool
  | [] => true
  | i :: r => i.accepted && itemsAccepted r

def Query.accepted : Query V → Bool
  | .select _ items src _ joins wheres _ =>
    decide (optLabels src ++ joinsLabels joins).Nodup && itemsAccepted items && optAccepted src
      && joinsAccepted joins && clausesAccepted wheres
  | .compound parts _ => queriesAccepted parts

def queriesAccepted : List (List (Tok V) × Query V) → Bool
  | [] => true
  | (_, q) :: r => q.accepted && queriesAccepted r

end

/-! ### Meaning -/

section

variable [DecidableEq V] (I : Interp V) (D : Db V)

mutual

def Cond.eval : Cond V → Env V → Truth
  | .atom none ts, env => I.atom ts env
  | .atom (some (c, v)) _, env => (env.value I c).map fun w => decide (w = v)
  | .group cs, env => evalClauses id (clauseTruths cs env)
  | .sub pre q post, env => I.sub pre post (q.eval env) env

def clauseTruths : List (Conn × Cond V) → Env V → List (Conn × Truth)
  | [], _ => []
  | (k, c) :: r, env => (k, c.eval env) :: clauseTruths r env

def Source.eval : Source V → Env V → List (Frame V)
  | .table name label _, _ => (D name).map fun r => [(label, some r)]
  | .derived _ q _ label, env => (q.eval env).map fun r => [(label, some r)]
  | .raw ts, env => I.raw ts D env

/-- A select without sources has one empty frame. -/
def optSourceEval : Option (Source V) → Env V → List (Frame V)
  | none, _ => [[]]
  | some s, env => s.eval env

def Join.eval : Join V → List String → List (Frame V) → Env V → List (Frame V)
  | .on kind _ src nested cs, ls, left, env =>
    joinFrames kind ls left (src.labels ++ joinsLabels nested)
      (joinsEval nested src.labels (src.eval env) env)
      fun f => evalClauses id (clauseTruths cs (f :: env)) == some true
  | .lateral kind _ src nested _, _, left, env =>
    left.flatMap fun l =>
      extend (kind == .left) (src.labels ++ joinsLabels nested)
        (joinsEval nested src.labels (src.eval (l :: env)) (l :: env)) (fun _ => true) l
  | .text _, _, left, _ => left

def joinsEval : List (Join V) → List String → List (Frame V) → Env V → List (Frame V)
  | [], _, left, _ => left
  | j :: r, ls, left, env => joinsEval r (ls ++ j.labels) (j.eval ls left env) env

def Item.eval : Item V → Env V → List (Row V)
  | .text _, _ => []
  | .sub _ q _, env => q.eval env

def itemsEval : List (Item V) → Env V → List (List (Row V))
  | [], _ => []
  | i :: r, env => i.eval env :: itemsEval r env

def Query.eval : Query V → Env V → List (Row V)
  | .select head items src hint joins wheres tail, env =>
    let frames := joinsEval joins (optLabels src) (optSourceEval src env) env
    let kept := frames.filter fun f => evalClauses id (clauseTruths wheres (f :: env)) == some true
    I.finish ⟨head, itemParts items, hint, tail⟩
      (kept.map fun f => (f, itemsEval items (f :: env))) env
  | .compound parts tail, env => I.compound (queriesEval parts env) tail env

def queriesEval : List (List (Tok V) × Query V) → Env V → List (List (Tok V) × List (Row V))
  | [], _ => []
  | (pre, q) :: r, env => (pre, q.eval env) :: queriesEval r env

end

/-- The rows of an accepted query. -/
def Query.run (q : Query V) : Option (List (Row V)) :=
  if q.accepted then some (q.eval I D []) else none

end

end Hesape.Sql
