import Hesape.Query.Builder
import Hesape.Text.Segments

/-!
# Operators and directions

An operator reaches the statement as text, so it is only ever one of the spellings a
grammar lists.  `normalizeOperator` looks an operator up in the list of the grammar that
compiles and, for word operators, in the list of the grammar the builder was given; what
it returns is the listed spelling.  `normalizeOrderDirection` does the same for `asc` and
`desc`.
-/

namespace Hesape.Query

open Hesape.Text (isSpace)

inductive Dialect
  | mysql | mariadb | postgres | sqlite
  deriving DecidableEq

/-- A driver grammar: its dialect and what a process can set on it. -/
structure Grammar where
  dialect : Dialect
  tablePrefix : String := ""
  /-- operators registered with the Postgres grammar -/
  customOperators : List String := []
  /-- whether the server version has window functions -/
  windowFunctions : Bool := true

/-- The grammar of a connection as it is opened. -/
def newGrammar (dialect : Dialect) : Grammar := { dialect := dialect }

/-- The operators every grammar lists. -/
def operators : List String :=
  ["=", "<", ">", "<=", ">=", "<>", "!=", "<=>",
   "like", "like binary", "not like", "ilike",
   "&", "|", "^", "<<", ">>", "&~", "is", "is not",
   "rlike", "not rlike", "regexp", "not regexp",
   "~", "~*", "!~", "!~*", "similar to",
   "not similar to", "not ilike", "~~*", "!~~*"]

def bitwiseOperators : List String := ["&", "|", "^", "<<", ">>", "&~"]

def postgresOperators : List String :=
  ["=", "<", ">", "<=", ">=", "<>", "!=",
   "like", "not like", "between", "ilike", "not ilike",
   "~", "&", "|", "#", "<<", ">>", "<<=", ">>=",
   "&&", "@>", "<@", "?", "?|", "?&", "||", "-", "@?", "@@", "#-",
   "is distinct from", "is not distinct from"]

def postgresBitwiseOperators : List String := ["~", "&", "|", "#", "<<", ">>", "<<=", ">>="]

def sqliteOperators : List String :=
  ["=", "<", ">", "<=", ">=", "<>", "!=",
   "like", "not like", "ilike",
   "&", "|", "<<", ">>"]

namespace Grammar

/-- The source sorts the Postgres list; only membership matters to its readers. -/
def getOperators (g : Grammar) : List String :=
  match g.dialect with
  | .mysql | .mariadb => operators ++ ["sounds like"]
  | .postgres => operators ++ postgresOperators ++ g.customOperators
  | .sqlite => operators ++ sqliteOperators

def getBitwiseOperators (g : Grammar) : List String :=
  match g.dialect with
  | .postgres => bitwiseOperators ++ postgresBitwiseOperators
  | _ => bitwiseOperators

end Grammar

/-! ### Spelling -/

def lowerChar (c : Char) : Char :=
  if 'A' ≤ c ∧ c ≤ 'Z' then Char.ofNat (c.toNat + 32) else c

def lower (s : String) : String := String.ofList (s.toList.map lowerChar)

/-- Case-insensitive equality; the operators it is asked about are ASCII. -/
def equalFold (a b : String) : Bool := lower a == lower b

def containsSub (sub : List Char) : List Char → Bool
  | [] => sub.isEmpty
  | c :: cs => sub.isPrefixOf (c :: cs) || containsSub sub cs

def isWordChar (c : Char) : Bool := c.isAlpha || c.isDigit || c == '_'

/-- The characters of an operator, after the one before each. -/
def safeChars (compound : Bool) : Option Char → List Char → Bool
  | _, [] => true
  | prev, c :: cs =>
    (if c == ' ' then prev.isSome && prev != some ' ' && !cs.isEmpty
      else c.toNat < 128 && 32 < c.toNat && c.toNat != 127
        && (isWordChar c || !compound && "+-*/<>=~!@#%^&|?".toList.contains c))
      && safeChars compound (some c) cs

/-- An operator is one symbol run or words with single blanks between them, with no
comment in it. -/
def lexicallySafeOperator (operator : String) : Bool :=
  let cs := operator.toList
  !cs.isEmpty && !(cs.head?.any isSpace) && !(cs.getLast?.any isSpace)
    && !containsSub "--".toList cs && !containsSub "/*".toList cs && !containsSub "*/".toList cs
    && safeChars (cs.contains ' ') none cs

def wordOperator (operator : String) : Bool :=
  !operator.toList.isEmpty && operator.toList.all fun c => c == ' ' || isWordChar c

/-- The listed spelling of an operator. -/
def declaredOperator (allowed : List String) (operator : String) : Option String :=
  allowed.find? fun c => lexicallySafeOperator c && equalFold c operator

/-- The canonical spelling under the compiling grammar's list, or, for a word operator,
under the list the builder's own grammar declares. -/
def normalizeOperator (compiler : List String) (declared : Option (List String))
    (operator : String) : Except Err String :=
  if !lexicallySafeOperator operator then .error (.invalidOperator operator)
  else match declaredOperator compiler operator with
    | some c => .ok c
    | none =>
      match declared with
      | none => .error (.invalidOperator operator)
      | some l =>
        if wordOperator operator then
          match declaredOperator l operator with
          | some c => .ok c
          | none => .error (.invalidOperator operator)
        else .error (.invalidOperator operator)

/-- A direction is spelled `asc` or `desc`; an order written as text is left alone. -/
def normalizeOrderDirection (o : Order) : Except Err Order :=
  if o.sql.isSome then .ok o
  else if equalFold o.direction "asc" then .ok { o with direction := "asc" }
  else if equalFold o.direction "desc" then .ok { o with direction := "desc" }
  else .error (.invalidDirection o.direction)

end Hesape.Query
