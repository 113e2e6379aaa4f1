import Hesape.Query.Subqueries

/-!
# Putting the tenant on a statement

`scopedFor` is the door every statement goes through.  It copies the builder, puts the
tenant's clause in front of the caller's clauses, which it wraps in a group, and then goes
through everything else the statement reads: the unions, the subqueries of its clauses,
the subqueries recorded for its select list, its from and its joins, and the joined
tables.

Before-query callbacks run on the copy, after the tenant's clause is on it, in rounds,
until none is left.  A callback is a name; `prog` says what the named callback does.
-/

namespace Hesape.Query

open Sql (Conn)

def tenantColumn : String := "tenant_id"

/-- What a grant says: the tenant, where the empty string is none, and whether a statement that
writes is allowed. -/
structure Grant where
  tenant : String
  writable : Bool := true

def tenantFor (grant : Grant) : Except Err String :=
  if grant.tenant = "" then .error .noTenant else .ok grant.tenant

theorem tenantFor_ok {grant : Grant} {tenant : String} (h : tenantFor grant = .ok tenant) : grant.tenant = tenant := by
  unfold tenantFor at h
  split at h <;> cases h
  rfl

/-! ### Before-query callbacks -/

/-- A where clause a callback adds: a comparison, or a group of them. -/
inductive ClauseAct
  | compare (k : Conn) (column : ColArg) (operator : String) (value : Val)
  | group (k : Conn) (acts : List ClauseAct)

/-- What a callback does to the builder it is given. -/
inductive Action
  | clause (c : ClauseAct)
  | beforeQuery (callback : Nat)

mutual

def ClauseAct.run (g : Grammar) : ClauseAct → Builder Tree → Builder Tree
  | .compare k column operator value, b => b.addWhere g k column operator value
  | .group k acts, b => b.addNestedWhereQuery k (.node (runClauses g acts b.forNestedWhere))

def runClauses (g : Grammar) : List ClauseAct → Builder Tree → Builder Tree
  | [], b => b
  | a :: r, b => runClauses g r (a.run g b)

end

def Action.run (g : Grammar) (b : Builder Tree) : Action → Builder Tree
  | .clause c => c.run g b
  | .beforeQuery callback => { b with callbacks := b.callbacks ++ [callback] }

section Settle

variable (prog : Nat → List Action) (g : Grammar)

/-- The callbacks of one builder, run in order. -/
def runCallbacks (b : Builder Tree) : Builder Tree :=
  b.callbacks.foldl (fun b callback => (prog callback).foldl (Action.run g) b)
    { b with callbacks := [] }

/-- `applyBeforeQueryCallbacks`: one round over the graph. -/
def drain : Tree → Tree := Tree.para fun b => .node (runCallbacks prog g (b.map Prod.snd))

/-- `hasBeforeQueryCallbacks`. -/
def hasCallbacks : Tree → Bool :=
  Tree.para fun b => !b.callbacks.isEmpty || b.children.any Prod.snd

def settleRounds : Nat → Tree → Except Err Tree
  | 0, _ => .error .callbacksDidNotSettle
  | n + 1, t =>
    let t := drain prog g t
    if hasCallbacks t then settleRounds n t else (validate g t).map fun _ => t

/-- `ApplyBeforeQueryCallbacks`, its error as a result. -/
def settle : Tree → Except Err Tree := settleRounds prog g 64

end Settle

/-! ### Passes -/

/-- `whereBindings` of one clause. -/
def clauseBindings {Q : Type} (nested all : Q → List Val) (w : Where Q) : List Val :=
  match w.typ with
  | "Basic" => (w.query.map all).getD [] ++ w.value.binding
  | "In" | "Between" =>
    match w.query with
    | some q => all q
    | none => cleanBindings w.values
  | "Raw" => w.values
  | "Like" | "valueBetween" | "Fulltext" | "Date" | "Time" | "Day" | "Month" | "Year"
  | "JsonContains" | "JsonOverlaps" | "JsonLength" => w.value.binding
  | "RowValues" => cleanBindings w.values
  | "Nested" => (w.query.map nested).getD []
  | "Exists" => (w.query.map all).getD []
  | _ => []

/-- `WhereBindings`: the values of the clauses, built again from the clauses. -/
def whereBindings : Tree → List Val :=
  Tree.para fun b => b.wheres.flatMap (clauseBindings Prod.snd fun p => p.1.builder.bindings.all)

def mapE {A B : Type} (f : A → Except Err B) : List A → Except Err (List B)
  | [] => .ok []
  | a :: l =>
    match f a with
    | .error e => .error e
    | .ok b =>
      match mapE f l with
      | .error e => .error e
      | .ok bs => .ok (b :: bs)

/-- What scoping makes of a builder: as a statement of its own, and as a parenthesised group
of the statement around it. -/
structure Scoping where
  statement : Except Err Tree
  group : Except Err Tree

/-! ### The name a table goes under -/

/-- What follows the first ` as `, in either case. -/
def afterAs : List Char → Option (List Char)
  | [] => none
  | c :: r =>
    if c = ' ' ∧ (r.take 3).map Char.toLower = ['a', 's', ' '] then some (r.drop 3) else afterAs r

/-- The alias in a table's text, or the text. -/
def aliasOr (table : String) : String :=
  ((afterAs table.toList).map fun r => Text.trimText (String.ofList r)).getD table

/-- `joinedTableName`. -/
def joinedTableName (table : String) : Option String :=
  let name := aliasOr (Text.trimText table)
  if name = "" then none else some name

namespace Builder

def withoutCallbacks {Q : Type} (b : Builder Q) : Builder Q := { b with callbacks := [] }

/-- The column qualified by the table's name inside the statement; a table that has none
leaves it bare. -/
def qualify {Q : Type} (b : Builder Q) (column : String) : Column :=
  match b.table with
  | some (.table t) => if t.text = "" then .bare column else .of (aliasOr t.text) column
  | _ => .bare column

/-- The tenant's clause, and behind it the caller's clauses as one group. -/
def wrapTenant {Q : Type} (g : Grammar) (b : Builder Q) (tenant : String) (inner : Q) : Builder Q :=
  let column := ColArg.name (b.qualify tenantColumn)
  if b.wheres.isEmpty then b.addWhere g .and column "=" (.str tenant)
  else
    (({ b with wheres := [], bindings := b.bindings.set .where [] } : Builder Q).addWhere g .and
      column "=" (.str tenant)).pushWhere { typ := "Nested", query := some inner } (b.bindings .where)

end Builder

section Passes

variable (g : Grammar)

/-- `ToSQL` on a scoped subquery: its text, and the values that text takes. -/
def toSql (s : Tree) : Except Err (Sql.Query Val × List Val) :=
  (validate g s).map fun _ => ((g.compile s).query, (g.compileEffect s).builder.bindings.all)

/-- One clause under `scopeSubqueries`. -/
def scopeWhere (w : Where (Tree × Scoping)) : Except Err (Where Tree) :=
  match w.query with
  | none => .ok { w with query := none }
  | some (q, r) =>
    match w.typ with
    | "Exists" | "In" => r.statement.map fun s => { w with query := some s }
    | "Basic" =>
      r.statement.bind fun s => (toSql g s).map fun t =>
        { w with query := some (g.compileEffect s), column := .sub false t.1 none }
    | "Nested" => r.group.map fun s => { w with query := some s }
    | _ => .ok { w with query := some q }

def rewritesClause {Q : Type} (w : Where Q) : Bool :=
  w.query.isSome && w.typ ∈ ["Exists", "In", "Basic", "Nested"]

/-- New clauses; their values are built again when a clause changed. -/
def withWheres (b : Builder Tree) (changed : Bool) (ws : List (Where Tree)) : Builder Tree :=
  { b with
    wheres := ws
    bindings :=
      if changed then b.bindings.set .where
        (ws.flatMap (clauseBindings whereBindings fun t => t.builder.bindings.all))
      else b.bindings }

/-- `scopeSubqueries`. -/
def scopeSubqueries (b : Builder (Tree × Scoping)) : Except Err (Builder Tree) :=
  (mapE (scopeWhere g) b.wheres).map (withWheres (b.map Prod.fst) (b.wheres.any rewritesClause))

/-- New union members with their values; without members nothing is touched. -/
def withUnions (b : Builder Tree) (us : List (Union Tree)) : Builder Tree :=
  { b with
    unions := us
    bindings :=
      if us.isEmpty then b.bindings
      else b.bindings.set .union (us.flatMap fun u => u.query.builder.bindings.all) }

/-- `scopeUnions`. -/
def scopeUnions (us : List (Union (Tree × Scoping))) : Except Err (List (Union Tree)) :=
  mapE (fun u => u.query.2.statement.map fun s => ⟨s, u.all⟩) us

/-- The clause a recorded subquery is printed in, given its new text. -/
def placeSub {Q : Type} (b : Builder Tree) (p : PendingSub Q) (q : Sql.Query Val) : Builder Tree :=
  match p.kind with
  | .from => { b with table := some (.sub q p.as) }
  | .select => { b with columns := b.columns.map fun cs => cs.set p.index (.sub p.prefixed q (some p.as)) }
  | .join => { b with joins := b.joins.modify p.index fun j => { j with table := .sub q p.as } }

/-- One record of `scopeSubqueryClauses`; `shift` is how far each segment has moved. -/
def scopeSub (st : Builder Tree × (Segment → Int)) (p : PendingSub (Tree × Scoping)) :
    Except Err (Builder Tree × (Segment → Int)) :=
  p.query.2.statement.bind fun s => (toSql g s).bind fun t =>
    let b := placeSub st.1 p t.1
    let segment := b.bindings p.segment
    let start := p.offset + st.2 p.segment
    if start < 0 || (segment.length : Int) < start + p.length then .error (.bindingsMoved p.kind)
    else
      let vs := segment.take start.toNat ++ t.2 ++ segment.drop (start.toNat + p.length)
      .ok ({ b with bindings := b.bindings.set p.segment vs },
        fun s => if s = p.segment then st.2 s + (t.2.length - p.length) else st.2 s)

def foldE {S A : Type} (f : S → A → Except Err S) : S → List A → Except Err S
  | s, [] => .ok s
  | s, a :: l => (f s a).bind fun s => foldE f s l

/-- The records go once their clauses carry the tenant. -/
def dropSubqueries (b : Builder Tree) : Builder Tree := { b with subqueries := [] }

def scopeSubqueryClauses (ps : List (PendingSub (Tree × Scoping))) (b : Builder Tree) :
    Except Err (Builder Tree) :=
  (foldE (scopeSub g) (b, fun _ => 0) ps).map fun st => dropSubqueries st.1

/-- The clause compares this column with a value. -/
def filtersColumn (column : Column) (w : Where Tree) : Bool :=
  w.typ = "Basic" && (match w.column with | .name c => c = column | _ => false)

def hasFilterOn (b : Builder Tree) (column : Column) : Bool := b.wheres.any (filtersColumn column)

/-- The name a join's columns are qualified by; a subquery and an expression have none. -/
def JoinClause.tableName {Q : Type} (j : JoinClause Q) : Option String :=
  match j.table with
  | .table t => joinedTableName t.text
  | _ => none

/-- `scopeJoins` at one join: the tenant's clause for a joined table that has none. -/
def scopeJoin (tenant : String) (b : Builder Tree) (j : JoinClause Tree) : Builder Tree :=
  match j.tableName with
  | none => b
  | some l =>
    if hasFilterOn b (.of l tenantColumn) then b
    else b.addWhere g .and (.name (.of l tenantColumn)) "=" (.str tenant)

/-- `ScopeNested` between its two rounds of callbacks. -/
def scopeNested (tenant : String) (b : Builder (Tree × Scoping)) : Except Err (Builder Tree) :=
  (scopeUnions b.unions).bind fun us => (scopeSubqueries g b).bind fun s =>
    (scopeSubqueryClauses g b.subqueries (withUnions s us)).map fun s =>
      s.joins.foldl (scopeJoin g tenant) s

/-- The caller's clauses as a group; nothing asks for them as a statement. -/
def innerGroup (b : Builder (Tree × Scoping)) : Tree × Scoping :=
  (.node (b.map Prod.fst).withoutCallbacks, ⟨.error .noTenant, (scopeSubqueries g b).map Tree.node⟩)

/-- Scoping below the statement, where no callback is left. -/
def scopingStep (tenant : String) (b : Builder (Tree × Scoping)) : Scoping where
  group := (scopeSubqueries g b).map Tree.node
  statement :=
    (validate g (.node ((b.wrapTenant g tenant (innerGroup g b)).map Prod.fst))).bind fun _ =>
      (scopeNested g tenant (b.wrapTenant g tenant (innerGroup g b))).bind fun s =>
        (validate g (.node s)).map fun _ => .node s

def scoping (tenant : String) : Tree → Scoping := Tree.para (scopingStep g tenant)

end Passes

/-- `scoped`: the copy of a builder a statement is compiled from. -/
def scopedFor (prog : Nat → List Action) (g : Grammar) (grant : Grant) (t : Tree) : Except Err Tree :=
  (tenantFor grant).bind fun tenant =>
    (settle prog g (.node (t.builder.wrapTenant g tenant (.node t.builder.withoutCallbacks)))).bind
      fun w => (scopeNested g tenant (w.builder.map fun c => (c, scoping g tenant c))).bind fun s =>
        settle prog g (.node s)

/-- What a statement is: its text and the values sent with it. -/
structure Statement where
  query : Sql.Query Val
  bindings : List Val

/-- Every placeholder is sent the value it was written for. -/
def Statement.Sent (s : Statement) : Prop := Sql.Aligned s.query.toks s.bindings

instance (s : Statement) : Decidable s.Sent := inferInstanceAs (Decidable (_ = _))

/-- The columns of a call to `Get`. -/
def calledColumns (columns : List ColArg) : List ColArg :=
  if columns.isEmpty then [.name (.bare "*")] else columns

/-- The columns of the call are used when the builder has chosen none. -/
def Builder.choosing (b : Builder Tree) (columns : List ColArg) : Builder Tree :=
  { b with columns := some (b.columns.getD (calledColumns columns)) }

/-- `Get`, up to the connection. -/
def get (prog : Nat → List Action) (g : Grammar) (grant : Grant) (t : Tree)
    (columns : List ColArg) : Except Err Statement :=
  (scopedFor prog g grant t).bind fun s =>
    (toSql g (.node (s.builder.choosing columns))).map fun p => ⟨p.1, p.2⟩

end Hesape.Query
