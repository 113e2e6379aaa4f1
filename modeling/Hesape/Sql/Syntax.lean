import Hesape.Sql.Clauses
import Hesape.Sql.Text

/-!
# Statements

The syntax of a select as a printer hands it over: the parts that decide which
rows a statement reads (tables, joins, conditions, subqueries) are kept as
structure, everything else as text.  A condition without a subquery is an `atom`,
and an atom that compares one column with one value says so beside its text, since
those are the only atoms anything is proved about.

`Query.toks` prints a query.  The `Parts` functions print the members of a list one
by one, and the non-recursive joiners below put the separators between them.
-/

namespace Hesape.Sql

/-- A column as it is named in a condition: `name`, or `qualifier.name`. -/
structure ColRef where
  qualifier : Option String
  name : String
  deriving DecidableEq

inductive JoinKind
  | inner | left | right | cross | straight
  deriving DecidableEq

mutual

/-- One condition of a flat list. -/
inductive Cond (V : Type)
  /-- a condition without a subquery; `eq` when it reads `column = value` -/
  | atom (eq : Option (ColRef × V)) (ts : List (Tok V))
  /-- a parenthesised list -/
  | group (cs : List (Conn × Cond V))
  /-- a condition around a subquery: `exists (q)`, `(q) >= n` -/
  | sub (pre : List (Tok V)) (q : Query V) (post : List (Tok V))

/-- Something rows are read from. -/
inductive Source (V : Type)
  /-- a stored table, known inside the statement as `label` -/
  | table (name label : String) (ts : List (Tok V))
  /-- a subquery under a name -/
  | derived (pre : List (Tok V)) (q : Query V) (post : List (Tok V)) (label : String)
  /-- text nobody has looked into -/
  | raw (ts : List (Tok V))

inductive Join (V : Type)
  /-- a join; with `nested` not empty the right side is a parenthesised join of its own -/
  | on (kind : JoinKind) (pre : List (Tok V)) (src : Source V) (nested : List (Join V))
      (cs : List (Conn × Cond V))
  /-- a join against a subquery that sees the rows joined so far -/
  | lateral (kind : JoinKind) (pre : List (Tok V)) (src : Source V) (nested : List (Join V))
      (post : List (Tok V))
  /-- a join the engine has no spelling for -/
  | text (ts : List (Tok V))

/-- A member of the select list. -/
inductive Item (V : Type)
  | text (ts : List (Tok V))
  | sub (pre : List (Tok V)) (q : Query V) (post : List (Tok V))

inductive Query (V : Type)
  | select (head : List (Tok V)) (items : List (Item V)) (src : Option (Source V))
      (hint : List (Tok V)) (joins : List (Join V)) (wheres : List (Conn × Cond V))
      (tail : List (Tok V))
  /-- text around other queries: a union, a windowed select, a counted select -/
  | compound (parts : List (List (Tok V) × Query V)) (tail : List (Tok V))

end

/-! ### Printing -/

section Joiners

variable {V : Type}

/-- The word of a condition that is not the first of its list. -/
def Conn.toks (k : Conn) : List (Tok V) :=
  match k.disj, k.neg with
  | false, false => [.kw " and "]
  | false, true => [.kw " and not "]
  | true, false => [.kw " or "]
  | true, true => [.kw " or not "]

/-- The first condition loses its `and` or `or` and keeps its `not`. -/
def joinClauses : List (Conn × List (Tok V)) → List (Tok V)
  | [] => []
  | (k, ts) :: r =>
    (if k.neg then [.kw "not "] else []) ++ ts ++ r.flatMap fun p => p.1.toks ++ p.2

def commaSep : List (List (Tok V)) → List (Tok V)
  | [] => []
  | ts :: r => ts ++ r.flatMap fun us => .kw ", " :: us

/-- A word and what it introduces, or nothing. -/
def after (ts us : List (Tok V)) : List (Tok V) := if us.isEmpty then [] else ts ++ us

def paren (ts : List (Tok V)) : List (Tok V) := .kw "(" :: ts ++ [.kw ")"]

/-- The right side of a join: a table, or a table and its own joins in brackets. -/
def nestedToks (ts : List (Tok V)) : List (List (Tok V)) → List (Tok V)
  | [] => ts
  | js => paren (ts ++ js.flatMap fun us => .kw " " :: us)

end Joiners

variable {V : Type}

mutual

def Cond.toks : Cond V → List (Tok V)
  | .atom _ ts => ts
  | .group cs => paren (joinClauses (clauseParts cs))
  | .sub pre q post => pre ++ paren q.toks ++ post

def clauseParts : List (Conn × Cond V) → List (Conn × List (Tok V))
  | [] => []
  | (k, c) :: r => (k, c.toks) :: clauseParts r

def Source.toks : Source V → List (Tok V)
  | .table _ _ ts => ts
  | .derived pre q post _ => pre ++ paren q.toks ++ post
  | .raw ts => ts

def optSourceToks : Option (Source V) → List (Tok V)
  | none => []
  | some s => .kw " from " :: s.toks

def Join.toks : Join V → List (Tok V)
  | .on _ pre src nested cs =>
    pre ++ nestedToks src.toks (joinParts nested)
      ++ after [.kw " on "] (joinClauses (clauseParts cs))
  | .lateral _ pre src nested post => pre ++ nestedToks src.toks (joinParts nested) ++ post
  | .text ts => ts

def joinParts : List (Join V) → List (List (Tok V))
  | [] => []
  | j :: r => j.toks :: joinParts r

def Item.toks : Item V → List (Tok V)
  | .text ts => ts
  | .sub pre q post => pre ++ paren q.toks ++ post

def itemParts : List (Item V) → List (List (Tok V))
  | [] => []
  | i :: r => i.toks :: itemParts r

def Query.toks : Query V → List (Tok V)
  | .select head items src hint joins wheres tail =>
    head ++ commaSep (itemParts items) ++ optSourceToks src ++ hint
      ++ (joinParts joins).flatMap (fun ts => .kw " " :: ts)
      ++ after [.kw " where "] (joinClauses (clauseParts wheres)) ++ tail
  | .compound parts tail => queryParts parts ++ tail

def queryParts : List (List (Tok V) × Query V) → List (Tok V)
  | [] => []
  | (pre, q) :: r => pre ++ q.toks ++ queryParts r

end

end Hesape.Sql
