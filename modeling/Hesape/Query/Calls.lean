import Hesape.Query.Scope

/-!
# Builders as the calls that make them

A caller never writes a builder down; they start from an empty one and call methods on
it.  `Call` is one such call with its arguments.  A closure or a subquery is the list of
calls made on the builder handed to it, so a program against the fluent interface is a
`List Call` and `runCalls` is what it builds.

Facts about every builder a caller can reach are proved by `calls_induction`: a step
for each call, the closures and subqueries inside it already done.
-/

namespace Hesape.Query

open Sql (Conn JoinKind)
open List

/-- A column as a caller writes it: a name or an `Expression`. -/
inductive Col
  | name (c : Column)
  | expr (sql : String) (args : List Val)
  deriving DecidableEq

def Col.arg : Col → ColArg
  | .name c => .name c
  | .expr sql args => .expr sql args

/-- One call on a builder. -/
inductive Call
  | select (columns : List Col)
  | addSelect (columns : List Col)
  | selectRaw (sql : String) (args : List Val)
  | selectSub (prefixed : Bool) (sub : List Call) (as : String)
  | «from» (t : TableName)
  | fromRaw (sql : String) (args : List Val)
  | fromSub (sub : List Call) (as : String)
  | join (kind : JoinKind) (t : TableName) (on : List Call)
  | joinRaw (kind : JoinKind) (sql : String) (on : List Call)
  | joinSub (kind : JoinKind) (sub : List Call) (as : String) (on : List Call)
  | crossJoinSub (sub : List Call) (as : String)
  | joinLateral (kind : JoinKind) (sub : List Call) (as : String)
  | «where» (k : Conn) (column : Col) (operator : String) (value : Val)
  | whereColumn (k : Conn) (first : Col) (operator : String) (second : Col)
  | whereRaw (k : Conn) (sql : String) (args : List Val)
  | whereIn (k : Conn) (not : Bool) (column : Col) (values : List Val)
  | whereNull (k : Conn) (not : Bool) (columns : List Col)
  | whereBetween (k : Conn) (not : Bool) (column : Col) (low high : Val)
  | whereLike (k : Conn) (not : Bool) (column : Col) (value : Val) (caseSensitive : Bool)
  | whereIntegerInRaw (k : Conn) (not : Bool) (column : Col) (values : List Val)
  | whereBetweenColumns (k : Conn) (not : Bool) (column : Col) (columns : List Col)
  | whereValueBetween (k : Conn) (not : Bool) (value : Val) (columns : List Col)
  | whereDate (k : Conn) (part : Builder.DatePart) (column : Col) (operator : String) (value : Val)
  | whereRowValues (k : Conn) (columns : List Col) (operator : String) (values : List Val)
  | whereJSON (k : Conn) (not : Bool) (test : Builder.JsonTest) (column : Col) (value : Val)
  | whereJSONContainsKey (k : Conn) (not : Bool) (column : Col)
  | whereJSONLength (k : Conn) (column : Col) (operator : String) (value : Val)
  | whereFullText (k : Conn) (columns : List Col) (value : Val) (options : FullTextOptions)
  | whereNested (k : Conn) (group : List Call)
  | whereAcross (k inner : Conn) (columns : List Col) (operator : String) (value : Val)
  | whereExists (k : Conn) (not : Bool) (sub : List Call)
  | whereSubCount (k : Conn) (sub : List Call) (operator : String) (count : Int)
  | groupBy (columns : List Col)
  | groupByRaw (sql : String) (args : List Val)
  | having (k : Conn) (column : Col) (operator : String) (value : Val)
  | havingRaw (k : Conn) (sql : String) (args : List Val)
  | havingNull (k : Conn) (not : Bool) (columns : List Col)
  | havingBetween (k : Conn) (not : Bool) (column : Col) (values : List Val)
  | havingNested (k : Conn) (group : List Call)
  | orderBy (column : Col) (direction : String)
  | orderByRaw (sql : String) (args : List Val)
  | reorder
  | union (sub : List Call) (all : Bool)
  | limit (n : Int)
  | offset (n : Int)
  | groupLimit (n : Int) (column : Column)
  | lock (l : Lock)
  | distinct (columns : List Col)
  | aggregate (function : String) (columns : List Col)
  | timeout (seconds : Nat)
  | useIndex (hint : IndexHint)
  | beforeQuery (callback : Nat)

section Run

variable (g : Grammar) (encode : Val → Except String Val)

mutual

def Call.run : Call → Builder Tree → Builder Tree
  | .select columns, b => b.select (columns.map Col.arg)
  | .addSelect columns, b => b.addSelect (columns.map Col.arg)
  | .selectRaw sql args, b => b.selectRaw sql args
  | .selectSub prefixed sub as, b => b.selectSub g prefixed (.node (runCalls sub {})) as
  | .from t, b => b.setTable (.table t)
  | .fromRaw sql args, b => b.fromRaw sql args
  | .fromSub sub as, b => b.fromSub g (.node (runCalls sub {})) as
  | .join kind t on, b => b.addJoin kind (.table t) (.node (runCalls on {}))
  | .joinRaw kind sql on, b => b.addJoin kind (.expr sql []) (.node (runCalls on {}))
  | .joinSub kind sub as on, b =>
    b.joinSub g kind (.node (runCalls sub {})) as (.node (runCalls on {}))
  | .crossJoinSub sub as, b => b.crossJoinSub g (.node (runCalls sub {})) as
  | .joinLateral kind sub as, b => b.joinLateral g kind (.node (runCalls sub {})) as
  | .where k column operator value, b => b.addWhere g k column.arg operator value
  | .whereColumn k first operator second, b => b.whereColumn g k first.arg operator second.arg
  | .whereRaw k sql args, b => b.whereRaw k sql args
  | .whereIn k not column values, b => b.whereIn k not column.arg values
  | .whereNull k not columns, b => b.whereNull k not (columns.map Col.arg)
  | .whereBetween k not column low high, b => b.whereBetween k not column.arg low high
  | .whereLike k not column value cs, b => b.whereLike g k not column.arg value cs
  | .whereIntegerInRaw k not column values, b => b.whereIntegerInRaw k not column.arg values
  | .whereBetweenColumns k not column columns, b =>
    b.whereBetweenColumns k not column.arg (columns.map Col.arg)
  | .whereValueBetween k not value columns, b => b.whereValueBetween k not value (columns.map Col.arg)
  | .whereDate k part column operator value, b =>
    b.addDateBasedWhere g k part column.arg operator value
  | .whereRowValues k columns operator values, b =>
    b.whereRowValues g k (columns.map Col.arg) operator values
  | .whereJSON k not test column value, b => b.addWhereJSON encode k not test column.arg value
  | .whereJSONContainsKey k not column, b => b.whereJSONContainsKey k not column.arg
  | .whereJSONLength k column operator value, b => b.addWhereJSONLength g k column.arg operator value
  | .whereFullText k columns value options, b =>
    b.whereFullText k (columns.map Col.arg) value options
  | .whereNested k group, b => b.addNestedWhereQuery k (.node (runCalls group b.forNestedWhere))
  | .whereAcross k inner columns operator value, b =>
    b.whereAcross g k inner (columns.map Col.arg) operator value
  | .whereExists k not sub, b => b.addWhereExistsQuery k not (.node (runCalls sub {}))
  | .whereSubCount k sub operator count, b =>
    b.whereSubCount g k (.node (runCalls sub {})) operator count
  | .groupBy columns, b => b.groupBy (columns.map Col.arg)
  | .groupByRaw sql args, b => b.groupByRaw sql args
  | .having k column operator value, b => b.addHaving g k column.arg operator value
  | .havingRaw k sql args, b => b.havingRaw k sql args
  | .havingNull k not columns, b => b.havingNull k not (columns.map Col.arg)
  | .havingBetween k not column values, b => b.havingBetween k not column.arg values
  | .havingNested k group, b => b.addNestedHavingQuery k (.node (runCalls group b.forNestedWhere))
  | .orderBy column direction, b => b.orderBy column.arg direction
  | .orderByRaw sql args, b => b.orderByRaw sql args
  | .reorder, b => b.clearOrders
  | .union sub all, b => b.union (.node (runCalls sub {})) all
  | .limit n, b => b.setLimit n
  | .offset n, b => b.setOffset n
  | .groupLimit n column, b => b.setGroupLimit n column
  | .lock l, b => b.setLock l
  | .distinct columns, b => b.setDistinct (columns.map Col.arg)
  | .aggregate function columns, b => b.setAggregate function (columns.map Col.arg)
  | .timeout seconds, b => { b with timeout := some seconds }
  | .useIndex hint, b => { b with indexHint := some hint }
  | .beforeQuery callback, b => { b with callbacks := b.callbacks ++ [callback] }

/-- A sequence of calls on a builder. -/
def runCalls : List Call → Builder Tree → Builder Tree
  | [], b => b
  | c :: cs, b => runCalls cs (c.run b)

end

end Run

/-- The lists of calls a call carries: closures and subqueries. -/
def Call.inner : Call → List (List Call)
  | .selectSub _ sub _ => [sub]
  | .fromSub sub _ => [sub]
  | .join _ _ on => [on]
  | .joinRaw _ _ on => [on]
  | .joinSub _ sub _ on => [sub, on]
  | .crossJoinSub sub _ => [sub]
  | .joinLateral _ sub _ => [sub]
  | .whereNested _ group => [group]
  | .whereExists _ _ sub => [sub]
  | .whereSubCount _ sub _ _ => [sub]
  | .havingNested _ group => [group]
  | .union sub _ => [sub]
  | _ => []

section Induction

-- Only the list case reads the hypotheses; the calls pass them on.
set_option linter.unusedSectionVars false

variable {P : List Call → Prop} (nil : P [])
  (cons : ∀ c cs, (∀ l ∈ c.inner, P l) → P cs → P (c :: cs))
include nil cons

mutual

theorem callsInner : ∀ c : Call, ∀ l ∈ c.inner, P l
  | .selectSub _ sub _, l, h => by rw [mem_singleton.mp h]; exact callsOn sub
  | .fromSub sub _, l, h => by rw [mem_singleton.mp h]; exact callsOn sub
  | .join _ _ on, l, h => by rw [mem_singleton.mp h]; exact callsOn on
  | .joinRaw _ _ on, l, h => by rw [mem_singleton.mp h]; exact callsOn on
  | .joinSub _ sub _ on, l, h => by
    rcases mem_cons.mp h with h | h
    · rw [h]; exact callsOn sub
    · rw [mem_singleton.mp h]; exact callsOn on
  | .crossJoinSub sub _, l, h => by rw [mem_singleton.mp h]; exact callsOn sub
  | .joinLateral _ sub _, l, h => by rw [mem_singleton.mp h]; exact callsOn sub
  | .whereNested _ group, l, h => by rw [mem_singleton.mp h]; exact callsOn group
  | .whereExists _ _ sub, l, h => by rw [mem_singleton.mp h]; exact callsOn sub
  | .whereSubCount _ sub _ _, l, h => by rw [mem_singleton.mp h]; exact callsOn sub
  | .havingNested _ group, l, h => by rw [mem_singleton.mp h]; exact callsOn group
  | .union sub _, l, h => by rw [mem_singleton.mp h]; exact callsOn sub
  | .select _, _, h | .addSelect _, _, h | .selectRaw _ _, _, h | .from _, _, h
  | .fromRaw _ _, _, h | .where _ _ _ _, _, h | .whereColumn _ _ _ _, _, h
  | .whereRaw _ _ _, _, h | .whereIn _ _ _ _, _, h | .whereNull _ _ _, _, h
  | .whereBetween _ _ _ _ _, _, h | .whereLike _ _ _ _ _, _, h
  | .whereIntegerInRaw _ _ _ _, _, h | .whereBetweenColumns _ _ _ _, _, h
  | .whereValueBetween _ _ _ _, _, h | .whereDate _ _ _ _ _, _, h
  | .whereRowValues _ _ _ _, _, h | .whereJSON _ _ _ _ _, _, h
  | .whereJSONContainsKey _ _ _, _, h | .whereJSONLength _ _ _ _, _, h
  | .whereFullText _ _ _ _, _, h | .whereAcross _ _ _ _ _, _, h | .groupBy _, _, h
  | .groupByRaw _ _, _, h | .having _ _ _ _, _, h | .havingRaw _ _ _, _, h
  | .havingNull _ _ _, _, h | .havingBetween _ _ _ _, _, h | .orderBy _ _, _, h
  | .orderByRaw _ _, _, h | .reorder, _, h | .limit _, _, h | .offset _, _, h
  | .groupLimit _ _, _, h | .lock _, _, h | .distinct _, _, h | .aggregate _ _, _, h
  | .timeout _, _, h | .useIndex _, _, h | .beforeQuery _, _, h => nomatch h

theorem callsOn : ∀ cs : List Call, P cs
  | [] => nil
  | c :: cs => cons c cs (callsInner c) (callsOn cs)

end

end Induction

/-- **Induction over programs**: one call in front, with what it carries inside done. -/
@[elab_as_elim]
theorem calls_induction {P : List Call → Prop} (nil : P [])
    (cons : ∀ c cs, (∀ l ∈ c.inner, P l) → P cs → P (c :: cs)) (cs : List Call) : P cs :=
  callsOn nil cons cs

end Hesape.Query
