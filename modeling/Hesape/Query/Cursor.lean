import Hesape.Order.Keyset
import Hesape.Query.CompileWrite

/-!
# Paging by a cursor

`CursorPaginate` reads one page at a time.  A cursor names the row at the edge of the last
page by the text its ordering columns have there, and the next page is bounded by

    a > ?a or (a = ?a and (b > ?b or (b = ?b and c > ?c)))

with the comparison turned around for a descending column and the whole ordering turned
around when the cursor points backwards.  `addCursorConditions` builds that condition with the
builder's own methods and puts it behind the caller's where clauses; `newCursorPage` drops the
probe row and picks the rows the next cursors are made of.

`Engine` is what is asked of the database: how it reads a condition that is not a group, what a
column is worth in a row, and what an expression of the select list is.  `Engine.get` runs a select: the
rows that pass the where clauses, in order, from the offset up to the limit.
-/

namespace Hesape.Query

open Sql (Tok Conn Cond Truth evalClauses)

/-! ### Names -/

/-- A column as it is written. -/
def Column.text (c : Column) : String :=
  joinText "." (Grammar.columnSegments c) ++ String.join (c.path.map ("->" ++ ·))

/-- `stringify` of an ordering column. -/
def Order.text (o : Order) : String :=
  match o.column with
  | .name c => c.text
  | .expr sql _ => sql
  | .sub _ _ _ => ""

/-- `stripTableForPluck`: the name the driver keys a column by. -/
def pluckName (name : String) : String := lastSegment name

/-- `getOriginalColumnNameForCursorPagination`: the column a name is an alias of. -/
def Builder.originalColumn {Q : Type} (g : Grammar) (b : Builder Q) (name : String) : Column :=
  ((b.columns.getD []).findSome? fun
    | .name c =>
      if c.called = some name ∨ c.called = some (g.wrapColumn (parseColumn name)) then
        some { c with called := none }
      else none
    | _ => none).getD (parseColumn name)

/-- A name with a bracket in it is SQL. -/
def cursorColumn (c : Column) : ColArg :=
  if c.text.toList.any fun x => x = '(' || x = ')' then .expr c.text [] else .name c

/-! ### Cursors -/

structure Cursor where
  parameters : List (String × String)
  pointsToNextItems : Bool
  deriving DecidableEq

/-- `Parameter`. -/
def Cursor.parameter (c : Cursor) (name : String) : Except Err String :=
  match c.parameters.lookup name with
  | some value => .ok value
  | none => .error (.message
      ("pagination: unable to find parameter [" ++ name ++ "] in pagination item"))

/-- What is known of one page. -/
structure CursorPage where
  count : Nat
  hasMore : Bool
  reversed : Bool
  previous : Option Cursor
  next : Option Cursor
  deriving DecidableEq

/-- `NewCursorPage`: `key` is the cursor of a row by its place among the rows read. -/
def newCursorPage (read perPage : Nat) (cursor : Option Cursor) (key : Nat → List (String × String)) :
    CursorPage :=
  let perPage := if perPage < 1 then 1 else perPage
  let hasMore := decide (perPage < read)
  let count := if hasMore then perPage else read
  let backwards := cursor.any fun c => !c.pointsToNextItems
  let first := if backwards then count - 1 else 0
  let last := if backwards then 0 else count - 1
  { count, hasMore, reversed := backwards
    previous :=
      if 0 < count ∧ !(cursor.isNone || (backwards && !hasMore)) then some ⟨key first, false⟩ else none
    next := if 0 < count ∧ (hasMore || backwards) then some ⟨key last, true⟩ else none }

/-! ### The condition -/

section Conditions

variable (g : Grammar) (b : Builder Tree) (cursor : Cursor)

def cursorOperator (o : Order) : String := if o.direction = "desc" then "<" else ">"

/-- The group of the orders from one on, written on `second`; `original` is the first of their
columns and `b` the builder that is paged. -/
def cursorGroup (original : Column) (second : Builder Tree) : List Order → Except Err (Builder Tree)
  | [] => .ok second
  | o :: rest =>
    (cursor.parameter o.text).bind fun value =>
      let bounded := second.addWhere g .and (cursorColumn original) (cursorOperator o) (.str value)
      match rest with
      | [] => .ok bounded
      | next :: _ =>
        -- Rows that are equal in this column are bounded by the next one.
        let third := bounded.forNestedWhere.addWhere g .and (cursorColumn original) "=" (.str value)
        (cursorGroup (b.originalColumn g next.text) third.forNestedWhere rest).map fun inner =>
          bounded.addNestedWhereQuery .or (.node (third.addNestedWhereQuery .and (.node inner)))

/-- `addCursorConditions` on the union members: each gets the group of its own columns, and the
union's values are collected again. -/
def cursorUnions (orders : List Order) : List (Union Tree) → Except Err (List (Union Tree) × List Val)
  | [] => .ok ([], [])
  | u :: us =>
    let member := u.query.builder
    let original := member.originalColumn g ((orders.head?.map Order.text).getD "")
    (cursorGroup g b cursor original member.forNestedWhere orders).bind fun nested =>
      (cursorUnions orders us).map fun p =>
        ({ u with query := .node (member.addNestedWhereQuery .and (.node nested)) } :: p.1,
          member.bindings .where ++ nested.bindings .where ++ p.2)

/-- `addCursorConditions`. -/
def addCursorConditions (orders : List Order) : Except Err (Builder Tree) :=
  let original := b.originalColumn g ((orders.head?.map Order.text).getD "")
  (cursorGroup g b cursor original b.forNestedWhere orders).bind fun second =>
    (cursorUnions g b cursor orders b.unions).map fun p =>
      ({ b with unions := p.1, bindings := b.bindings.add .union p.2 }).addNestedWhereQuery .and
        (.node second)

end Conditions

/-! ### Orders -/

def reverseDirections (os : List Order) : List Order :=
  os.map fun o =>
    if o.direction = "asc" then { o with direction := "desc" }
    else if o.direction = "desc" then { o with direction := "asc" }
    else o

def errRequiresOrderBy : Err :=
  .message "query: you must specify an orderBy clause when using this function"

/-- `ensureOrderForCursorPagination`: the builder with its orders turned around if asked for, and
the orders that have a direction. -/
def ensureOrder {Q : Type} (b : Builder Q) (shouldReverse : Bool) : Except Err (Builder Q × List Order) :=
  if b.orders = [] ∧ b.unionOrders = [] then .error errRequiresOrderBy
  else
    let b := if shouldReverse then
        { b with orders := reverseDirections b.orders, unionOrders := reverseDirections b.unionOrders }
      else b
    let orders := if b.unionOrders = [] then b.orders else b.unionOrders
    match orders.filter fun o => o.direction ≠ "" with
    | [] => .error errRequiresOrderBy
    | out => .ok (b, out)

/-! ### The database -/

/-- A database as a select reads it.  The rows are those of the from and the joins that the grant
may see; `⊥` is null. -/
structure Engine (V : Type) where
  Row : Type
  rows : List Row
  value : Row → Column → WithBot V
  /-- a condition without a subquery, by its text -/
  atom : List (Tok Val) → Row → Truth
  sub : List (Tok Val) → Sql.Query Val → List (Tok Val) → Row → Truth
  /-- what the driver returns under a name for a member of a select list that is no plain column -/
  computed : ColArg → Row → String → Option (WithBot V)
  /-- `stringify` -/
  text : V → String
  /-- what a text is compared as -/
  read : String → V

namespace Engine

variable {V : Type} (E : Engine V)

mutual

/-- The truth of a printed condition. -/
def truth : Cond Val → E.Row → Truth
  | .atom _ ts, r => E.atom ts r
  | .group cs, r => evalClauses id (truths cs r)
  | .sub pre q post, r => E.sub pre q post r

def truths : List (Conn × Cond Val) → E.Row → List (Conn × Truth)
  | [], _ => []
  | (k, c) :: rest, r => (k, truth c r) :: truths rest r

end

/-- The row passes the where clauses. -/
def passes (g : Grammar) (b : Builder Tree) (r : E.Row) : Bool :=
  evalClauses id (E.truths (g.whereClauses g.compile b.wheres) r) == some true

/-- The rows that pass. -/
def matching (g : Grammar) (b : Builder Tree) : List E.Row := E.rows.filter (E.passes g b)

/-- The tuple a row is ordered by. -/
def key (g : Grammar) (b : Builder Tree) (r : E.Row) : List (WithBot V) :=
  b.orders.map fun o => E.value r (b.originalColumn g o.text)

/-- The directions of an ordering. -/
def directions (b : Builder Tree) : List Bool := b.orders.map fun o => o.direction = "desc"

/-- What one member of a select list returns of a row under a name. -/
def returned (r : E.Row) (name : String) (c : ColArg) : Option (WithBot V) :=
  match c with
  | .name ⟨qualifier, column, [], called⟩ =>
    if column = "*" then some (E.value r ⟨qualifier, name, [], none⟩)
    else if called.getD column = name then some (E.value r ⟨qualifier, column, [], none⟩)
    else none
  | c => E.computed c r name

/-- The row as the driver returns it: a name that no member of the select list goes under is not in
it, and reads as null. -/
def record (columns : List ColArg) (r : E.Row) (name : String) : WithBot V :=
  (columns.findSome? (E.returned r name)).getD ⊥

variable [LinearOrder V]

/-- `Get`. -/
def get (g : Grammar) (b : Builder Tree) : Except Err (List E.Row) :=
  match b.err with
  | some e => .error e
  | none =>
    let rows := (Order.sorted (directions b) (E.key g b) (E.matching g b)).drop (b.offset.getD 0)
    .ok ((b.limit.map rows.take).getD rows)

/-- `stringify` of what the driver returned. -/
def stringify : WithBot V → String
  | ⊥ => ""
  | (v : V) => E.text v

/-- The cursor of a row. -/
def parameters (columns : List ColArg) (orders : List Order) (r : E.Row) : List (String × String) :=
  orders.map fun o => (o.text, E.stringify (E.record columns r (pluckName o.text)))

/-- The builder bounded at a cursor. -/
def bounded (g : Grammar) (b : Builder Tree) (orders : List Order) :
    Option Cursor → Except Err (Builder Tree)
  | none => .ok b
  | some c => addCursorConditions g (b.setBindings [] .union) c orders

/-- `paginateUsingCursor`. -/
def cursorPaginate (g : Grammar) (b : Builder Tree) (perPage : Nat) (cursor : Option Cursor)
    (columns : List ColArg) : Except Err (List E.Row × CursorPage) :=
  (ensureOrder b (cursor.any fun c => !c.pointsToNextItems)).bind fun p =>
    (bounded g p.1 p.2 cursor).bind fun b => (E.get g (b.setLimit (perPage + 1))).map fun rows =>
      let key := fun i => ((rows[i]?).map (E.parameters (b.columns.getD (calledColumns columns)) p.2)).getD []
      let page := newCursorPage rows.length perPage cursor key
      let kept := rows.take page.count
      (if page.reversed then kept.reverse else kept, page)

/-- The pages from a cursor on, each from the next cursor of the one before it; `none` when the walk
has not ended within `fuel` pages or a page fails. -/
def walk (g : Grammar) (b : Builder Tree) (perPage : Nat) (columns : List ColArg) :
    Nat → Option Cursor → Option (List (List E.Row × CursorPage))
  | 0, _ => none
  | fuel + 1, cursor =>
    match E.cursorPaginate g b perPage cursor columns with
    | .error _ => none
    | .ok page =>
      match page.2.next with
      | none => some [page]
      | some c => (walk g b perPage columns fuel (some c)).map (page :: ·)

end Engine

end Hesape.Query
