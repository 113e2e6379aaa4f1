import Hesape.Sql.Syntax

/-!
# Values, columns and tables

What a caller hands the builder.  Go types all of it `any`; here a value is a `Val`, a
column a `ColArg` and a table a `TableArg`, each with the shapes the package tells
apart.  Names are kept in parsed form: `users.name->first as n` is a qualifier, a name,
a JSON path and an alias.

An `Expression` is text the caller wrote, inlined as it is.  It carries the values the
same call bound beside it (`SelectRaw`, `OrderByRaw`), which nothing in the package
reads back and which say here whose placeholders its `?` are.  The expressions the
package itself makes around a compiled subquery keep the subquery.
-/

namespace Hesape.Query

/-- A time as the builder formats it. -/
structure Moment where
  year : Nat
  month : Nat
  day : Nat
  hour : Nat
  minute : Nat
  second : Nat
  deriving DecidableEq

/-- A bound value. -/
inductive Val
  | null
  | bool (b : Bool)
  | int (n : Int)
  /-- a floating point number by its decimal text -/
  | float (text : String)
  | str (s : String)
  | time (m : Moment)
  | list (vs : List Val)
  | map (kvs : List (String × Val))
  /-- an `Expression` -/
  | expr (sql : String) (args : List Val)

namespace Val

mutual

def beq : Val → Val → Bool
  | null, null => true
  | bool a, bool b => a == b
  | int a, int b => a == b
  | float a, float b => a == b
  | str a, str b => a == b
  | time a, time b => a == b
  | list a, list b => beqList a b
  | map a, map b => beqMap a b
  | expr a as, expr b bs => a == b && beqList as bs
  | _, _ => false

def beqList : List Val → List Val → Bool
  | [], [] => true
  | a :: as, b :: bs => beq a b && beqList as bs
  | _, _ => false

def beqMap : List (String × Val) → List (String × Val) → Bool
  | [], [] => true
  | (k, a) :: as, (l, b) :: bs => k == l && beq a b && beqMap as bs
  | _, _ => false

end

mutual

theorem beq_iff : ∀ a b : Val, beq a b ↔ a = b
  | null, b => by cases b <;> simp [beq]
  | bool _, b => by cases b <;> simp [beq]
  | int _, b => by cases b <;> simp [beq]
  | float _, b => by cases b <;> simp [beq]
  | str _, b => by cases b <;> simp [beq]
  | time _, b => by cases b <;> simp [beq]
  | list as, b => by cases b <;> simp [beq, beqList_iff as]
  | map as, b => by cases b <;> simp [beq, beqMap_iff as]
  | expr _ as, b => by cases b <;> simp [beq, beqList_iff as]

theorem beqList_iff : ∀ as bs : List Val, beqList as bs ↔ as = bs
  | [], bs => by cases bs <;> simp [beqList]
  | a :: as, bs => by cases bs <;> simp [beqList, beq_iff a, beqList_iff as]

theorem beqMap_iff : ∀ as bs : List (String × Val), beqMap as bs ↔ as = bs
  | [], bs => by cases bs <;> simp [beqMap]
  | (k, a) :: as, bs => by
    rcases bs with _ | ⟨⟨l, b⟩, bs⟩ <;> simp [beqMap, beq_iff a, beqMap_iff as]

end

instance : DecidableEq Val := fun a b => decidable_of_iff _ (beq_iff a b)

def isExpression : Val → Bool
  | expr _ _ => true
  | _ => false

/-- `cleanBindings` over one value: an expression is not bound. -/
def binding (v : Val) : List Val := if v.isExpression then [] else [v]

/-- The first leaf of a nested list. -/
def flattenValue : Val → Val
  | list (v :: _) => flattenValue v
  | v => v

end Val

/-- Drops the expressions of a list of values. -/
def cleanBindings (vs : List Val) : List Val := vs.filter fun v => !v.isExpression

/-- A column name: `qualifier.name->path as alias`, all but the name optional. -/
structure Column where
  qualifier : Option String := none
  name : String := ""
  path : List String := []
  called : Option String := none
  deriving DecidableEq, Inhabited

namespace Column

/-- A plain column, the only kind a comparison can be read on. -/
def ref? (c : Column) : Option Sql.ColRef :=
  if c.path.isEmpty && c.called.isNone then some ⟨c.qualifier, c.name⟩ else none

def bare (name : String) : Column := { name }

def of (qualifier name : String) : Column := { qualifier := some qualifier, name }

@[simp] theorem ref?_of (q n : String) : (of q n).ref? = some ⟨some q, n⟩ := rfl

end Column

/-- A column position: a name, an expression, or a subquery in brackets. -/
inductive ColArg
  | name (c : Column)
  | expr (sql : String) (args : List Val)
  /-- `(q)`, `(q) as alias`, `exists (q) as alias` -/
  | sub (prefixed : Bool) (q : Sql.Query Val) (as : Option String)

instance : Inhabited ColArg := ⟨.name default⟩

/-- A table name, `name` or `name as alias`. -/
structure TableName where
  name : String
  called : Option String := none
  deriving DecidableEq

namespace TableName

/-- What the table's columns are qualified with inside the statement. -/
def label (t : TableName) : String := t.called.getD t.name

/-- The table as the caller wrote it. -/
def text (t : TableName) : String := t.name ++ (t.called.map (" as " ++ ·)).getD ""

end TableName

/-- A table position. -/
inductive TableArg
  | table (t : TableName)
  | expr (sql : String) (args : List Val)
  | sub (q : Sql.Query Val) (as : String)

end Hesape.Query
