import Hesape.Query.Fluent
import Hesape.Query.Validate

/-!
# Methods that take other builders

Nested groups, existence tests, unions, joins, and the subqueries of a select list, a
from or a join.  The last kind is compiled when it is handed over; the text goes into the
clause and a `PendingSub` remembers the builder, so that it can be compiled again under a
tenant.
-/

namespace Hesape.Query

open Sql (Conn JoinKind)

/-! ### What compiling leaves behind -/

/-- A builder after each way a compile function can go through it. -/
structure Effects where
  /-- after `CompileSelect` -/
  select : Tree
  /-- after `whereClauses` -/
  wheres : Tree
  /-- after `CompileJoins` over its joins -/
  joins : Tree
  /-- after both, as the condition of a join -/
  condition : Tree

namespace Grammar

variable (g : Grammar)

/-- `CompileGroupLimit` moves the order bindings behind the select bindings, because the
orders are printed in the select list; an aggregate over groups works on a copy. -/
def ownEffect {Q : Type} (b : Builder Q) : Builder Q :=
  if b.aggregate.isSome && !(b.unions.isEmpty && b.havings.isEmpty) then b
  else if b.groupLimit.isSome then
    let b := { b with columns := some (b.columns.getD [.name (.bare "*")]) }
    if g.windowed then
      (b.setBindings (b.bindings .select ++ b.bindings .order) .select).setBindings [] .order
    else b
  else b

/-- Whether the union members are compiled: a group limit prints none of them. -/
def printsUnions {Q : Type} (b : Builder Q) : Bool :=
  b.groupLimit.isNone || g.dialect = .sqlite && !g.windowed

def effectWhere (w : Where (Tree × Effects)) : Where Tree :=
  match (whereType w.typ w.not).1 with
  | .exists | .sub => w.map fun p => p.2.select
  | .nested => w.map fun p => p.2.wheres
  | _ => w.map Prod.fst

def effectJoin (j : JoinClause (Tree × Effects)) : JoinClause Tree :=
  if j.lateral then j.map fun p => p.2.joins else j.map fun p => p.2.condition

def effectStep (b : Builder (Tree × Effects)) : Effects :=
  let old := b.map Prod.fst
  let wheres := b.wheres.map effectWhere
  let joins := b.joins.map effectJoin
  let unions := if g.printsUnions b then b.unions.map (Union.map fun p => p.2.select) else old.unions
  { select := .node (g.ownEffect { old with wheres, joins, unions })
    wheres := .node { old with wheres }
    joins := .node { old with joins }
    condition := .node { old with wheres, joins } }

def effects : Tree → Effects := Tree.para g.effectStep

/-- The builder after `CompileSelect`. -/
def compileEffect (t : Tree) : Tree := (g.effects t).select

/-- `resolveSub`: the builder, its text and the values of the text. -/
def resolveSub (sub : Tree) : Except Err (Tree × Sql.Query Val × List Val) :=
  match validate g sub with
  | .error e => .error e
  | .ok _ =>
    .ok (g.compileEffect sub, (g.compile sub).query, (g.compileEffect sub).builder.bindings.all)

end Grammar

namespace Builder

variable (g : Grammar) (b : Builder Tree)

/-! ### Groups, existence tests, unions -/

/-- `AddNestedWhereQuery`: an empty group is dropped. -/
def addNestedWhereQuery (k : Conn) (t : Tree) : Builder Tree :=
  let b := match t.builder.err with
    | some e => b.setError e
    | none => b
  if t.builder.wheres.isEmpty then b
  else b.pushWhere { typ := "Nested", query := some t, boolean := k } (t.builder.bindings .where)

def addNestedHavingQuery (k : Conn) (t : Tree) : Builder Tree :=
  let b := match t.builder.err with
    | some e => b.setError e
    | none => b
  if t.builder.havings.isEmpty then b
  else b.pushHaving { typ := "Nested", query := some t, boolean := k } (t.builder.bindings .having)

def addWhereExistsQuery (k : Conn) (not : Bool) (t : Tree) : Builder Tree :=
  b.pushWhere { typ := "Exists", query := some t, boolean := k, not } t.builder.bindings.all

def union (t : Tree) (all : Bool) : Builder Tree :=
  { b with unions := b.unions ++ [⟨t, all⟩], bindings := b.bindings.add .union t.builder.bindings.all }

/-- `ForNestedWhere`. -/
def forNestedWhere : Builder Tree := { table := b.table }

/-- `addWhereAcross`: one comparison over several columns, in a group. -/
def whereAcross (k inner : Conn) (columns : List ColArg) (operator : String) (value : Val) :
    Builder Tree :=
  b.addNestedWhereQuery k
    (.node (columns.foldl (fun n c => n.addWhere g inner c operator value) b.forNestedWhere))

/-! ### Joins -/

/-- `addJoinClause`, the condition already written on `condition`. -/
def addJoin (kind : JoinKind) (table : TableArg) (condition : Tree) : Builder Tree :=
  { b with
    joins := b.joins ++ [⟨condition, kind, table, false⟩]
    bindings := b.bindings.add .join condition.builder.bindings.all }

/-! ### Subqueries -/

/-- `resolveSub` failing: the error is kept and the query made false. -/
def refuseSub (e : Err) : Builder Tree :=
  (b.setError e).refuse .and "query: the subquery was refused"

/-- `pend`. -/
def pend (p : PendingSub Tree) : Builder Tree := { b with subqueries := b.subqueries ++ [p] }

/-- `SelectSub`, `SelectExistsSub`. -/
def selectSub (prefixed : Bool) (sub : Tree) (as : String) : Builder Tree :=
  match g.resolveSub sub with
  | .error e => b.refuseSub e
  | .ok (s, q, vs) =>
    ((b.addSelect [.sub prefixed q (some as)]).addBinding .select vs).pend
      { query := s, as, kind := .select, index := (b.columns.getD []).length, segment := .select,
        offset := (b.bindings .select).length, length := vs.length, prefixed }

/-- `WhereSubCount`: a subquery on the left of a comparison. -/
def whereSubCount (k : Conn) (sub : Tree) (operator : String) (count : Int) : Builder Tree :=
  b.withOperator g operator fun op =>
    match g.resolveSub sub with
    | .error e => b.setError e
    | .ok (s, q, vs) =>
      b.pushWhere
        { typ := "Basic", column := .sub false q none, operator := op, value := .int count,
          query := some s, boolean := k }
        (vs ++ [.int count])

/-- `FromSub`: unlike `From` it does not forget an earlier subquery. -/
def fromSub (sub : Tree) (as : String) : Builder Tree :=
  match g.resolveSub sub with
  | .error e => b.refuseSub e
  | .ok (s, q, vs) =>
    (({ b with table := some (.sub q as) } : Builder Tree).addBinding .from vs).pend
      { query := s, as, kind := .from, index := 0, segment := .from,
        offset := (b.bindings .from).length, length := vs.length }

/-- The common part of the subquery joins: the subquery's values come before the
condition's. -/
def pendJoin (lateral : Bool) (kind : JoinKind) (sub : Tree) (as : String) (condition : Tree) :
    Builder Tree :=
  match g.resolveSub sub with
  | .error e => b.refuseSub e
  | .ok (s, q, vs) =>
    ({ b with
        joins := b.joins ++ [⟨condition, kind, .sub q as, lateral⟩]
        bindings := (b.bindings.add .join vs).add .join condition.builder.bindings.all } :
      Builder Tree).pend
      { query := s, as, kind := .join, index := b.joins.length, segment := .join,
        offset := (b.bindings .join).length, length := vs.length }

/-- `JoinSub` with a callback. -/
def joinSub (kind : JoinKind) (sub : Tree) (as : String) (condition : Tree) : Builder Tree :=
  b.pendJoin g false kind sub as condition

def crossJoinSub (sub : Tree) (as : String) : Builder Tree := b.pendJoin g false .cross sub as (.node {})

def joinLateral (kind : JoinKind) (sub : Tree) (as : String) : Builder Tree :=
  b.pendJoin g true kind sub as (.node {})

end Builder

end Hesape.Query
