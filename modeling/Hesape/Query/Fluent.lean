import Hesape.Query.CompileSelect
import Hesape.Query.LikeBinding

/-!
# The fluent methods

Each method appends its clause to the builder and its values to the segment the clause
is printed in.  Families that differ in a word (`Where` and `OrWhere`, `Join` and
`LeftJoin`) are one function with the word as an argument.  Subqueries and join
conditions are handed in as builders; a callback is a function that has already been run
on a fresh one.
-/

namespace Hesape.Query

open Sql (Conn)

namespace Builder

section Generic

variable {Q : Type}

def addBinding (b : Builder Q) (s : Segment) (vs : List Val) : Builder Q :=
  { b with bindings := b.bindings.add s vs }

/-- The first error stays. -/
def setError (b : Builder Q) (e : Err) : Builder Q := { b with err := b.err <|> some e }

/-- A clause and the values it binds. -/
def pushWhere (b : Builder Q) (w : Where Q) (vs : List Val) : Builder Q :=
  { b with wheres := b.wheres ++ [w], bindings := b.bindings.add .where vs }

def pushHaving (b : Builder Q) (h : Having Q) (vs : List Val) : Builder Q :=
  { b with havings := b.havings ++ [h], bindings := b.bindings.add .having vs }

/-- `acceptOperator` and the early return behind it: a clause is only added with an operator
the grammar lists, on a builder without an error. -/
def withOperator (g : Grammar) (b : Builder Q) (operator : String) (add : String → Builder Q) :
    Builder Q :=
  match normalizeOperator g.getOperators none operator with
  | .error e => b.setError e
  | .ok op => if b.err.isSome then b else add op

/-- `addWhere` on a column. -/
def addWhere (g : Grammar) (b : Builder Q) (k : Conn) (column : ColArg) (operator : String)
    (value : Val) : Builder Q :=
  b.withOperator g operator fun op =>
    b.pushWhere { typ := "Basic", column, operator := op, value, boolean := k } value.binding

def whereColumn (g : Grammar) (b : Builder Q) (k : Conn) (first : ColArg) (operator : String)
    (second : ColArg) : Builder Q :=
  b.withOperator g operator fun op =>
    b.pushWhere { typ := "Column", first, operator := op, second, boolean := k } []

def whereRaw (b : Builder Q) (k : Conn) (sql : String) (args : List Val) : Builder Q :=
  b.pushWhere { typ := "Raw", sql, values := args, boolean := k } args

/-- A clause that is false, with the reason. -/
def refuse (b : Builder Q) (k : Conn) (reason : String) : Builder Q :=
  b.pushWhere { typ := "Raw", sql := "1 = 0 /* " ++ reason ++ " */", boolean := k } []

def whereIn (b : Builder Q) (k : Conn) (not : Bool) (column : ColArg) (values : List Val) :
    Builder Q :=
  b.pushWhere { typ := "In", column, values, boolean := k, not } (cleanBindings values)

def whereNull (b : Builder Q) (k : Conn) (not : Bool) (columns : List ColArg) : Builder Q :=
  columns.foldl (fun b column => b.pushWhere { typ := "Null", column, boolean := k, not } []) b

def whereBetween (b : Builder Q) (k : Conn) (not : Bool) (column : ColArg) (low high : Val) :
    Builder Q :=
  b.pushWhere { typ := "Between", column, values := [low, high], boolean := k, not }
    (cleanBindings [low, high])

/-- `stringify` of a value handed to a like clause. -/
def stringify : Val → String
  | .null => ""
  | .bool b => if b then "1" else "0"
  | .int n => toString n
  | .float s => s
  | .str s => s
  | .expr sql _ => sql
  | _ => ""

def likeValue (g : Grammar) (value : Val) (caseSensitive : Bool) : Val :=
  if g.dialect = .sqlite then
    .str (String.ofList (prepareWhereLikeBinding (stringify value).toList caseSensitive))
  else value

/-- A like value is bound whatever it is. -/
def whereLike (g : Grammar) (b : Builder Q) (k : Conn) (not : Bool) (column : ColArg) (value : Val)
    (caseSensitive : Bool) : Builder Q :=
  let v := likeValue g value caseSensitive
  b.pushWhere { typ := "Like", column, value := v, caseSensitive, boolean := k, not } [v]

/-- `castNumber`, cut to an integer. -/
def castNumber : Val → Option Int
  | .int n => some n
  | .bool b => some (if b then 1 else 0)
  | .str s => s.toInt?
  | .float s => (String.ofList (s.toList.takeWhile (· ≠ '.'))).toInt?
  | _ => none

def whereIntegerInRaw (b : Builder Q) (k : Conn) (not : Bool) (column : ColArg)
    (values : List Val) : Builder Q :=
  let integers := values.map fun v => Val.int ((castNumber v).getD 0)
  b.pushWhere { typ := "InRaw", column, values := integers, boolean := k, not } []

def whereBetweenColumns (b : Builder Q) (k : Conn) (not : Bool) (column : ColArg)
    (columns : List ColArg) : Builder Q :=
  b.pushWhere { typ := "betweenColumns", column, valueColumns := columns, boolean := k, not } []

def whereValueBetween (b : Builder Q) (k : Conn) (not : Bool) (value : Val)
    (columns : List ColArg) : Builder Q :=
  b.pushWhere { typ := "valueBetween", value, columns, boolean := k, not } [value]

/-- The five date clauses. -/
inductive DatePart
  | date | time | day | month | year

def DatePart.typ : DatePart → String
  | .date => "Date"
  | .time => "Time"
  | .day => "Day"
  | .month => "Month"
  | .year => "Year"

def twoDigits (n : Nat) : String := if n < 10 then "0" ++ toString n else toString n

def formatDatePart (part : DatePart) : Val → Val
  | .expr sql args => .expr sql args
  | .time m =>
    .str (match part with
      | .date => toString m.year ++ "-" ++ twoDigits m.month ++ "-" ++ twoDigits m.day
      | .time => twoDigits m.hour ++ ":" ++ twoDigits m.minute ++ ":" ++ twoDigits m.second
      | .day => twoDigits m.day
      | .month => twoDigits m.month
      | .year => toString m.year)
  | v =>
    match part with
    | .day | .month =>
      match castNumber v with
      | some n => .str (if n < 0 then toString n else twoDigits n.toNat)
      | none => v
    | _ => v

def addDateBasedWhere (g : Grammar) (b : Builder Q) (k : Conn) (part : DatePart) (column : ColArg)
    (operator : String) (value : Val) : Builder Q :=
  let v := formatDatePart part value.flattenValue
  b.withOperator g operator fun op =>
    b.pushWhere { typ := part.typ, column, operator := op, value := v, boolean := k } v.binding

def whereRowValues (g : Grammar) (b : Builder Q) (k : Conn) (columns : List ColArg)
    (operator : String) (values : List Val) : Builder Q :=
  if columns.length ≠ values.length then
    b.refuse k "query: the number of columns must match the number of values"
  else
    b.withOperator g operator fun op =>
      b.pushWhere { typ := "RowValues", columns, operator := op, values, boolean := k }
        (cleanBindings values)

/-- The two JSON clauses that bind a document. -/
inductive JsonTest
  | contains | overlaps

def JsonTest.typ : JsonTest → String
  | .contains => "JsonContains"
  | .overlaps => "JsonOverlaps"

/-- `addWhereJSON`; `encode` is the grammar's `PrepareBindingForJSONContains`, which can fail. -/
def addWhereJSON (encode : Val → Except String Val) (b : Builder Q) (k : Conn) (not : Bool)
    (test : JsonTest) (column : ColArg) (value : Val) : Builder Q :=
  if value.isExpression then
    b.pushWhere { typ := test.typ, column, value, boolean := k, not } []
  else
    match encode value with
    | .error reason => b.refuse k reason
    | .ok v => b.pushWhere { typ := test.typ, column, value := v, boolean := k, not } [v]

def whereJSONContainsKey (b : Builder Q) (k : Conn) (not : Bool) (column : ColArg) : Builder Q :=
  b.pushWhere { typ := "JsonContainsKey", column, boolean := k, not } []

def addWhereJSONLength (g : Grammar) (b : Builder Q) (k : Conn) (column : ColArg)
    (operator : String) (value : Val) : Builder Q :=
  let v := if value.isExpression then value else .int ((castNumber value.flattenValue).getD 0)
  b.withOperator g operator fun op =>
    b.pushWhere { typ := "JsonLength", column, operator := op, value := v, boolean := k } v.binding

def whereFullText (b : Builder Q) (k : Conn) (columns : List ColArg) (value : Val)
    (options : FullTextOptions) : Builder Q :=
  b.pushWhere { typ := "Fulltext", columns, value, options, boolean := k } [value]

/-! ### Grouping, having, ordering -/

def groupBy (b : Builder Q) (columns : List ColArg) : Builder Q :=
  { b with groups := b.groups ++ columns }

def groupByRaw (b : Builder Q) (sql : String) (args : List Val) : Builder Q :=
  { b with groups := b.groups ++ [.expr sql args], bindings := b.bindings.add .groupBy args }

def isBitwiseOperator (g : Grammar) (operator : String) : Bool :=
  (bitwiseOperators ++ g.getBitwiseOperators).any fun o => equalFold o operator

/-- `addHaving` on a column: what is bound is the first leaf of the value. -/
def addHaving (g : Grammar) (b : Builder Q) (k : Conn) (column : ColArg) (operator : String)
    (value : Val) : Builder Q :=
  b.withOperator g operator fun op =>
    let typ := if isBitwiseOperator g op then "Bitwise" else "Basic"
    b.pushHaving { typ, column, operator := op, value, boolean := k }
      (if value.isExpression then [] else [value.flattenValue])

def havingRaw (b : Builder Q) (k : Conn) (sql : String) (args : List Val) : Builder Q :=
  b.pushHaving { typ := "Raw", sql, args, boolean := k } args

def havingNull (b : Builder Q) (k : Conn) (not : Bool) (columns : List ColArg) : Builder Q :=
  columns.foldl (fun b column =>
    b.pushHaving { typ := if not then "NotNull" else "Null", column, boolean := k } []) b

/-- At most two of the values that are not expressions are bound. -/
def havingBetween (b : Builder Q) (k : Conn) (not : Bool) (column : ColArg) (values : List Val) :
    Builder Q :=
  b.pushHaving { typ := "between", column, values, boolean := k, not }
    ((cleanBindings values).take 2)

/-- An order goes to the union once there is one. -/
def pushOrder (b : Builder Q) (o : Order) (vs : List Val) : Builder Q :=
  if b.unions.isEmpty then
    { b with orders := b.orders ++ [o], bindings := b.bindings.add .order vs }
  else { b with unionOrders := b.unionOrders ++ [o], bindings := b.bindings.add .unionOrder vs }

def orderBy (b : Builder Q) (column : ColArg) (direction : String) : Builder Q :=
  b.pushOrder { column, direction := if lower direction = "desc" then "desc" else "asc" } []

def orderByRaw (b : Builder Q) (sql : String) (args : List Val) : Builder Q :=
  b.pushOrder { sql := some (sql, args) } args

/-- `Reorder` without a column. -/
def clearOrders (b : Builder Q) : Builder Q :=
  { b with
    orders := [], unionOrders := []
    bindings := (b.bindings.set .order []).set .unionOrder [] }

def setLimit (b : Builder Q) (n : Int) : Builder Q :=
  if n < 0 then b
  else if b.unions.isEmpty then { b with limit := some n.toNat }
  else { b with unionLimit := some n.toNat }

def setOffset (b : Builder Q) (n : Int) : Builder Q :=
  if b.unions.isEmpty then { b with offset := some n.toNat }
  else { b with unionOffset := some n.toNat }

def setGroupLimit (b : Builder Q) (n : Int) (column : Column) : Builder Q :=
  if n < 0 then b else { b with groupLimit := some ⟨n.toNat, column⟩ }

def setLock (b : Builder Q) (l : Lock) : Builder Q := { b with lock := some l }

def setDistinct (b : Builder Q) (columns : List ColArg) : Builder Q :=
  { b with distinct := some (if columns.isEmpty then .plain else .on columns) }

/-- Without groups an aggregate has nothing to order. -/
def setAggregate (b : Builder Q) (function : String) (columns : List ColArg) : Builder Q :=
  let b := { b with aggregate := some ⟨function, columns⟩ }
  if b.groups.isEmpty then { b with orders := [], bindings := b.bindings.set .order [] } else b

/-! ### Selecting -/

def forgetSubqueriesOfKind (b : Builder Q) (kind : PendingKind) : Builder Q :=
  { b with subqueries := b.subqueries.filter fun s => s.kind ≠ kind }

def forgetSubqueriesOfSegment (b : Builder Q) (s : Segment) : Builder Q :=
  { b with subqueries := b.subqueries.filter fun p => p.segment ≠ s }

/-- `Select`: the select list starts over. -/
def select (b : Builder Q) (columns : List ColArg) : Builder Q :=
  { b.forgetSubqueriesOfKind .select with
    columns := some (if columns.isEmpty then [.name (.bare "*")] else columns)
    bindings := b.bindings.set .select [] }

def addSelect (b : Builder Q) (columns : List ColArg) : Builder Q :=
  { b with columns := some (b.columns.getD [] ++ columns) }

def selectRaw (b : Builder Q) (sql : String) (args : List Val) : Builder Q :=
  (b.addSelect [.expr sql args]).addBinding .select args

/-- `From`: the table is replaced, the values bound for an earlier one are not. -/
def setTable (b : Builder Q) (t : TableArg) : Builder Q :=
  { b.forgetSubqueriesOfKind .from with table := some t }

def fromRaw (b : Builder Q) (sql : String) (args : List Val) : Builder Q :=
  (b.setTable (.expr sql args)).addBinding .from args

/-- `SetBindings`. -/
def setBindings (b : Builder Q) (vs : List Val) (s : Segment) : Builder Q :=
  { b.forgetSubqueriesOfSegment s with bindings := b.bindings.set s vs }

end Generic

end Builder

end Hesape.Query
