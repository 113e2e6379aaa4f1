import Hesape.Query.Wrap

/-!
# Compiling where and having clauses

One function per clause type, in each dialect's spelling.  A clause is dispatched on its
type name lower-cased, with the `Not…` names folded into the `not` flag, exactly as
`compileWhere` does; the having dispatch sends every unknown type to the basic form.

A clause an engine has no spelling for becomes `1 = 0` with the reason in a comment, so
that a filter nobody can write never disappears.
-/

namespace Hesape.Query

open Sql (Tok Conn Cond paren commaSep joinClauses)

/-- What the compile functions have made of a builder. -/
structure Compiled where
  /-- `CompileSelect` -/
  query : Sql.Query Val
  /-- the clauses `whereClauses` joins up -/
  wheres : List (Conn × Cond Val)
  /-- the clauses `havingClauses` joins up -/
  havings : List (Conn × List (Tok Val))
  /-- `CompileJoins` over the builder's own joins -/
  joins : List (Sql.Join Val)

/-! ### Clause types -/

inductive WhereKind
  | raw | basic | bitwise | like | «in» | inRaw | null | between | betweenColumns | valueBetween
  | date | time | day | month | year | column | nested | sub | «exists» | rowValues
  | jsonBoolean | jsonContains | jsonOverlaps | jsonContainsKey | jsonLength | fulltext
  | expression | unknown
  deriving DecidableEq

/-- `whereType`: the lower-cased name, and the negation a `not…` name stands for. -/
def whereType (typ : String) (not : Bool) : WhereKind × Bool :=
  match lower typ with
  | "notnull" => (.null, true)
  | "notin" => (.in, true)
  | "notinraw" => (.inRaw, true)
  | "notexists" => (.exists, true)
  | "notbetween" => (.between, true)
  | "raw" => (.raw, not)
  | "basic" => (.basic, not)
  | "bitwise" => (.bitwise, not)
  | "like" => (.like, not)
  | "in" => (.in, not)
  | "inraw" => (.inRaw, not)
  | "null" => (.null, not)
  | "between" => (.between, not)
  | "betweencolumns" => (.betweenColumns, not)
  | "valuebetween" => (.valueBetween, not)
  | "date" => (.date, not)
  | "time" => (.time, not)
  | "day" => (.day, not)
  | "month" => (.month, not)
  | "year" => (.year, not)
  | "column" => (.column, not)
  | "nested" => (.nested, not)
  | "sub" => (.sub, not)
  | "exists" => (.exists, not)
  | "rowvalues" => (.rowValues, not)
  | "jsonboolean" => (.jsonBoolean, not)
  | "jsoncontains" => (.jsonContains, not)
  | "jsonoverlaps" => (.jsonOverlaps, not)
  | "jsoncontainskey" => (.jsonContainsKey, not)
  | "jsonlength" => (.jsonLength, not)
  | "fulltext" => (.fulltext, not)
  | "expression" => (.expression, not)
  | _ => (.unknown, not)

inductive HavingKind
  | raw | between | null | notNull | bit | expression | nested | bitwise | basic

/-- The having dispatch; only Postgres tells a bitwise having apart. -/
def havingType (typ : String) : HavingKind :=
  match lower typ with
  | "raw" => .raw
  | "between" => .between
  | "null" => .null
  | "notnull" => .notNull
  | "bit" => .bit
  | "expression" => .expression
  | "nested" => .nested
  | "bitwise" => .bitwise
  | _ => .basic

/-! ### Shared pieces -/

/-- `strings.ReplaceAll(s, "*/", "* /")`. -/
def breakComment : List Char → List Char
  | [] => []
  | '*' :: '/' :: r => '*' :: ' ' :: '/' :: breakComment r
  | c :: r => c :: breakComment r

/-- The reason a clause is refused for, as a comment that its own text cannot close. -/
def refusal (err : String) : String := "/* " ++ String.ofList (breakComment err.toList) ++ " */"

/-- `1 = 0` and the reason. -/
def unsupportedClause (err : String) : List (Tok Val) := [.kw "1 = 0 ", .quoted (refusal err)]

/-- One character as `%q` writes it; what is not ASCII counts as printable. -/
def quoteRune (c : Char) : List Char :=
  if c = '"' ∨ c = '\\' then ['\\', c]
  else match c.toNat with
    | 7 => "\\a".toList
    | 8 => "\\b".toList
    | 9 => "\\t".toList
    | 10 => "\\n".toList
    | 11 => "\\v".toList
    | 12 => "\\f".toList
    | 13 => "\\r".toList
    | n => if n < 32 ∨ n = 127 then "\\x".toList ++ Text.padded 16 2 n else [c]

def errMissingSubquery : String := "query/grammars: the where clause has no subquery to compile"

/-- The refusal of a clause type nobody compiles. -/
def errNoCompiler (typ : String) : String :=
  "query/grammars: no compiler for where clause type \"" ++ String.ofList (typ.toList.flatMap quoteRune)
    ++ "\""

/-- `a op b`, the operator as it stands. -/
def infixToks (left : List (Tok Val)) (operator : String) (right : List (Tok Val)) :
    List (Tok Val) :=
  left ++ [.kw " ", .op operator, .kw " "] ++ right

/-- `a [not] between b and c`. -/
def betweenToks (not : Bool) (subject first last : List (Tok Val)) : List (Tok Val) :=
  subject ++ [if not then .kw " not between " else .kw " between "] ++ first ++ [.kw " and "] ++ last

/-- The first and the last of a list, `null` for an empty one. -/
def ends (vs : List Val) : Val × Val := (vs.head?.getD .null, vs.getLast?.getD .null)

def endsOf (cs : List ColArg) : ColArg × ColArg := (cs.head?.getD default, cs.getLast?.getD default)

def containsText (sub s : String) : Bool := containsSub sub.toList s.toList

/-- An integer of a raw `in` list. -/
def intTok : Val → List (Tok Val)
  | .int n => [.num n]
  | .expr sql args => [.raw sql args]
  | .str s => [.raw s []]
  | .float s => [.raw s []]
  | .bool b => [.num (if b then 1 else 0)]
  | _ => []

namespace Grammar

variable (g : Grammar)

/-- `WhereBasic` around a left side already printed. -/
def basicToks (left : List (Tok Val)) (operator : String) (value : Val) : List (Tok Val) :=
  if g.dialect = .postgres && containsText "like" (lower operator) then
    infixToks (left ++ [.kw "::text"]) operator (parameter value)
  else if g.dialect = .sqlite && operator = "<=>" then left ++ [.kw " IS "] ++ parameter value
  else infixToks left (doubleMarks operator) (parameter value)

/-- The operator of a like clause. -/
def likeOperator (caseSensitive not : Bool) : String :=
  (if not then "not " else "") ++
    match g.dialect with
    | .mysql | .mariadb => if caseSensitive then "like binary" else "like"
    | .postgres => if caseSensitive then "like" else "ilike"
    | .sqlite => if caseSensitive then "glob" else "like"

/-- A date part compared: `kind` is one of the five date clauses. -/
def dateToks (kind : WhereKind) (column : ColArg) (operator : String) (value : Val) :
    List (Tok Val) :=
  let col := g.wrap column
  let json := match column with | .name c => !c.path.isEmpty | _ => false
  match g.dialect with
  | .mysql | .mariadb =>
    infixToks ((match kind with
      | .date => [.kw "date("] | .time => [.kw "time("] | .day => [.kw "day("]
      | .month => [.kw "month("] | _ => [.kw "year("]) ++ col ++ [.kw ")"]) operator (parameter value)
  | .postgres =>
    match kind with
    | .date => infixToks ((if json then paren col else col) ++ [.kw "::date"]) operator (parameter value)
    | .time => infixToks ((if json then paren col else col) ++ [.kw "::time"]) operator (parameter value)
    | _ =>
      infixToks ((match kind with
        | .day => [.kw "extract(day from "] | .month => [.kw "extract(month from "]
        | _ => [.kw "extract(year from "]) ++ col ++ [.kw ")"]) operator (parameter value)
  | .sqlite =>
    infixToks ((match kind with
      | .date => [.kw "strftime('%Y-%m-%d', "] | .time => [.kw "strftime('%H:%M:%S', "]
      | .day => [.kw "strftime('%d', "] | .month => [.kw "strftime('%m', "]
      | _ => [.kw "strftime('%Y', "]) ++ col ++ [.kw ")"]) operator
      ([.kw "cast("] ++ parameter value ++ [.kw " as text)"])

/-- The field and the path of a JSON function, one quoted piece. -/
def jsonFieldPath (column : ColArg) : List (Tok Val) :=
  match column with
  | .name c => [.quoted (g.jsonField c ++ jsonPathArg c)]
  | other => g.wrap other

def jsonFieldOnly (column : ColArg) : List (Tok Val) :=
  match column with
  | .name c => [.quoted (g.jsonField c)]
  | other => g.wrap other

def jsonPathOnly (column : ColArg) : List (Tok Val) :=
  match column with
  | .name c => [.quoted (jsonPathArg c)]
  | _ => []

/-- The Postgres selector as jsonb. -/
def jsonbToks (column : ColArg) : List (Tok Val) :=
  match column with
  | .name c => [.kw "(", .quoted (g.postgresSelector "->" c), .kw ")::jsonb"]
  | other => [.kw "("] ++ g.wrap other ++ [.kw ")::jsonb"]

def nullToks (not : Bool) (column : ColArg) : List (Tok Val) :=
  match column with
  | .name c =>
    if g.isMySQL && !c.path.isEmpty then
      let e := "json_extract(" ++ g.jsonField c ++ jsonPathArg c ++ ")"
      if not then [.kw "(", .quoted e, .kw " is not null AND json_type(", .quoted e, .kw ") != 'NULL')"]
      else [.kw "(", .quoted e, .kw " is null OR json_type(", .quoted e, .kw ") = 'NULL')"]
    else g.wrap column ++ [if not then .kw " is not null" else .kw " is null"]
  | other => g.wrap other ++ [if not then .kw " is not null" else .kw " is null"]

def inToks (not : Bool) (column : ColArg) (members : List (List (Tok Val))) : List (Tok Val) :=
  if members.isEmpty then [if not then .kw "1 = 1" else .kw "0 = 1"]
  else g.wrap column ++ [if not then .kw " not in (" else .kw " in ("] ++ commaSep members ++ [.kw ")"]

def jsonContainsToks (column : ColArg) (value : Val) : List (Tok Val) :=
  match g.dialect with
  | .mysql | .mariadb =>
    [.kw "json_contains("] ++ g.jsonFieldOnly column ++ [.kw ", "] ++ parameter value
      ++ jsonPathOnly column ++ [.kw ")"]
  | .postgres => g.jsonbToks column ++ [.kw " @> "] ++ parameter value
  | .sqlite =>
    [.kw "exists (select 1 from json_each("] ++ g.jsonFieldPath column ++ [.kw ") where ",
      .quoted (g.wrapSegments ["json_each", "value"]), .kw " is "] ++ parameter value ++ [.kw ")"]

def jsonOverlapsToks (column : ColArg) (value : Val) : Option (List (Tok Val)) :=
  match g.dialect with
  | .mysql | .mariadb =>
    some ([.kw "json_overlaps("] ++ g.jsonFieldOnly column ++ [.kw ", "] ++ parameter value
      ++ jsonPathOnly column ++ [.kw ")"])
  | _ => none

/-- `jsonArrayIndex`: a number in brackets at the end, and what stands before it. -/
def jsonArrayIndex : List Char → Option (List Char × List Char)
  | [] => none
  | c :: r =>
    let body := r.dropLast
    let digits := match body with
      | '-' :: ds => ds
      | ds => ds
    if c = '[' ∧ r.getLast? = some ']' ∧ !digits.isEmpty ∧ digits.all Char.isDigit then some ([], body)
    else (jsonArrayIndex r).map fun p => (c :: p.1, p.2)

/-- What `strconv.Atoi` returns beside its error: the nearest number that fits. -/
def atoi (s : List Char) : Int :=
  let n : Int := match s with
    | '-' :: ds => -Int.ofNat ((Text.parseUint 10 ds).getD 0)
    | ds => Int.ofNat ((Text.parseUint 10 ds).getD 0)
  max (-2 ^ 63) (min n (2 ^ 63 - 1))

/-- The index a last path segment is, with the segment that is left in front of it. -/
def containsIndex (last : String) : Option (List String × Int) :=
  match Text.parseInt last.toList with
  | some n => some ([], n)
  | none => (jsonArrayIndex last.toList).map fun p => ([String.ofList p.1], atoi p.2)

/-- The segments of a column's text, cut at its arrows. -/
def arrowSegments (c : Column) : List String := joinText "." (columnSegments c) :: c.path

/-- The selector of the segments in front of the last; with none it is the empty name. -/
def postgresParent (c : Column) (left : List String) : String :=
  if c.path.isEmpty then
    match left with
    | [] => g.wrapSegments [""]
    | s :: _ => g.wrapSegments (splitText '.' s)
  else g.postgresSelector "->" { c with path := c.path.dropLast ++ left }

/-- The Postgres test for a key or an index; the last segment decides which, and a negative index
counts from the end. -/
def postgresContainsKey (c : Column) : List (Tok Val) :=
  let last := (arrowSegments c).getLast?.getD ""
  match containsIndex last with
  | some (left, index) =>
    let length := Int.bmod (if index < 0 then -index else index + 1) (2 ^ 64)
    [.kw "case when jsonb_typeof((", .quoted (g.postgresParent c left),
      .kw ")::jsonb) = 'array' then jsonb_array_length((", .quoted (g.postgresParent c left),
      .kw ")::jsonb) >= ", .num length, .kw " else false end"]
  | none =>
    [.kw "coalesce((", .quoted (g.postgresParent c []), .kw ")::jsonb ?? ",
      .quoted ("'" ++ replaceChar '\'' "''" last ++ "'"), .kw ", false)"]

def jsonContainsKeyToks (column : ColArg) : List (Tok Val) :=
  match g.dialect, column with
  | .mysql, _ | .mariadb, _ =>
    [.kw "ifnull(json_contains_path("] ++ g.jsonFieldOnly column ++ [.kw ", 'one'"]
      ++ jsonPathOnly column ++ [.kw "), 0)"]
  | .postgres, .name c => g.postgresContainsKey c
  | .postgres, other => [.kw "coalesce(("] ++ g.wrap other ++ [.kw ")::jsonb, false)"]
  | .sqlite, _ => [.kw "json_type("] ++ g.jsonFieldPath column ++ [.kw ") is not null"]

def jsonLengthToks (column : ColArg) (operator : String) (value : Val) : List (Tok Val) :=
  match g.dialect with
  | .mysql | .mariadb =>
    infixToks ([.kw "json_length("] ++ g.jsonFieldPath column ++ [.kw ")"]) operator (parameter value)
  | .postgres =>
    infixToks ([.kw "jsonb_array_length("] ++ g.jsonbToks column ++ [.kw ")"]) operator
      (parameter value)
  | .sqlite =>
    infixToks ([.kw "json_array_length("] ++ g.jsonFieldPath column ++ [.kw ")"]) operator
      (parameter value)

def jsonBooleanToks (column : ColArg) (operator : String) (value : Val) : List (Tok Val) :=
  match g.dialect, value with
  | .mysql, _ | .mariadb, _ => infixToks ([.kw "json_extract("] ++ g.jsonFieldPath column ++ [.kw ")"]) operator
      (parameter value)
  | .postgres, .expr sql args => infixToks (g.jsonbToks column) operator
      [.raw ("'" ++ sql ++ "'::jsonb") args]
  | .postgres, _ => infixToks (g.jsonbToks column) operator [.quoted "'?'::jsonb"]
  | _, _ => infixToks (g.wrap column) operator (parameter value)

def fullTextLanguages : List String :=
  ["simple", "arabic", "danish", "dutch", "english", "finnish", "french",
   "german", "hungarian", "indonesian", "irish", "italian", "lithuanian",
   "nepali", "norwegian", "portuguese", "romanian", "russian", "spanish",
   "swedish", "tamil", "turkish"]

def fullTextToks (columns : List ColArg) (value : Val) (o : FullTextOptions) :
    Option (List (Tok Val)) :=
  match g.dialect with
  | .mysql | .mariadb =>
    some ([.kw "match ("] ++ g.columnize columns ++ [.kw ") against ("] ++ parameter value
      ++ [if o.mode = "boolean" then .kw " in boolean mode" else .kw " in natural language mode"]
      ++ (if o.expanded && o.mode ≠ "boolean" then [.kw " with query expansion"] else [])
      ++ [.kw ")"])
  | .postgres =>
    let language := if o.language ∈ fullTextLanguages then o.language else "english"
    let part (c : ColArg) : List (Tok Val) :=
      if o.vector then g.wrap c
      else [.kw "to_tsvector(", .quoted ("'" ++ language ++ "'"), .kw ", "] ++ g.wrap c ++ [.kw ")"]
    let parts := match columns.map part with
      | [] => []
      | p :: r => p ++ r.flatMap (.kw " || " :: ·)
    some (paren parts ++ [.kw " @@ ", match o.mode with
        | "phrase" => .kw "phraseto_tsquery"
        | "websearch" => .kw "websearch_to_tsquery"
        | "raw" => .kw "to_tsquery"
        | _ => .kw "plainto_tsquery", .kw "(", .quoted ("'" ++ language ++ "'"), .kw ", "]
      ++ parameter value ++ [.kw ")"])
  | .sqlite => none

/-- `not` in front of a clause. -/
def negated (not : Bool) (ts : List (Tok Val)) : List (Tok Val) := if not then .kw "not " :: ts else ts

/-- The comparison a basic clause is read as, when it is one: a plain column, `=` and a
bound value. -/
def equality? (column : ColArg) (operator : String) (value : Val) : Option (Sql.ColRef × Val) :=
  match column with
  | .name c => if operator = "=" && !value.isExpression then c.ref?.map (·, value) else none
  | _ => none

/-- `compileWhere`. -/
def compileWhere {Q : Type} (sub : Q → Compiled) (w : Where Q) : Cond Val :=
  match whereType w.typ w.not with
  | (.raw, _) => .atom none [.raw w.sql w.values]
  | (.basic, _) =>
    match w.column with
    | .sub false q none => .sub [] q (g.basicToks [] w.operator w.value)
    | column => .atom (equality? column w.operator w.value)
        (g.basicToks (g.wrap column) w.operator w.value)
  | (.bitwise, _) =>
    if g.dialect = .postgres then
      .atom none ([.kw "("] ++ infixToks (g.wrap w.column) (doubleMarks w.operator) (parameter w.value)
        ++ [.kw ")::bool"])
    else .atom none (g.basicToks (g.wrap w.column) w.operator w.value)
  | (.like, not) =>
    .atom none (g.basicToks (g.wrap w.column) (g.likeOperator w.caseSensitive not) w.value)
  | (.in, not) => .atom none (g.inToks not w.column (w.values.map parameter))
  | (.inRaw, not) => .atom none (g.inToks not w.column (w.values.map intTok))
  | (.null, not) => .atom none (g.nullToks not w.column)
  | (.between, not) =>
    .atom none (betweenToks not (g.wrap w.column) (parameter (ends w.values).1)
      (parameter (ends w.values).2))
  | (.betweenColumns, not) =>
    .atom none (betweenToks not (g.wrap w.column) (g.wrap (endsOf w.valueColumns).1)
      (g.wrap (endsOf w.valueColumns).2))
  | (.valueBetween, not) =>
    .atom none (betweenToks not (parameter w.value) (g.wrap (endsOf w.columns).1)
      (g.wrap (endsOf w.columns).2))
  | (.date, _) => .atom none (g.dateToks .date w.column w.operator w.value)
  | (.time, _) => .atom none (g.dateToks .time w.column w.operator w.value)
  | (.day, _) => .atom none (g.dateToks .day w.column w.operator w.value)
  | (.month, _) => .atom none (g.dateToks .month w.column w.operator w.value)
  | (.year, _) => .atom none (g.dateToks .year w.column w.operator w.value)
  | (.column, _) => .atom none (infixToks (g.wrap w.first) w.operator (g.wrap w.second))
  | (.nested, _) =>
    match w.query with
    | none => .atom none []
    | some q => .group (sub q).wheres
  | (.sub, _) =>
    match w.query with
    | none => .atom none (unsupportedClause errMissingSubquery)
    | some q => .sub (g.wrap w.column ++ [.kw " ", .op w.operator, .kw " "]) (sub q).query []
  | (.exists, not) =>
    match w.query with
    | none => .atom none (unsupportedClause errMissingSubquery)
    | some q => .sub [if not then .kw "not exists " else .kw "exists "] (sub q).query []
  | (.rowValues, _) =>
    .atom none (infixToks (paren (g.columnize w.columns)) w.operator (paren (parameterize w.values)))
  | (.jsonBoolean, _) => .atom none (g.jsonBooleanToks w.column w.operator w.value)
  | (.jsonContains, not) => .atom none (negated not (g.jsonContainsToks w.column w.value))
  | (.jsonOverlaps, not) =>
    match g.jsonOverlapsToks w.column w.value with
    | some ts => .atom none (negated not ts)
    | none => .atom none (unsupportedClause
        "query/grammars: this database engine does not support JSON overlaps operations")
  | (.jsonContainsKey, not) => .atom none (negated not (g.jsonContainsKeyToks w.column))
  | (.jsonLength, _) => .atom none (g.jsonLengthToks w.column w.operator w.value)
  | (.fulltext, _) =>
    match g.fullTextToks w.columns w.value w.options with
    | some ts => .atom none ts
    | none => .atom none (unsupportedClause
        "query/grammars: this database engine does not support fulltext search operations")
  | (.expression, _) => .atom none (g.wrap w.column)
  | (.unknown, _) => .atom none (unsupportedClause (errNoCompiler w.typ))

/-- `CompileHaving`. -/
def compileHaving {Q : Type} (sub : Q → Compiled) (h : Having Q) : List (Tok Val) :=
  let basic := infixToks (g.wrap h.column) h.operator (parameter h.value)
  match havingType h.typ with
  | .raw => [.raw h.sql h.args]
  | .between =>
    betweenToks h.not (g.wrap h.column) (parameter (ends h.values).1) (parameter (ends h.values).2)
  | .null => g.wrap h.column ++ [.kw " is null"]
  | .notNull => g.wrap h.column ++ [.kw " is not null"]
  | .bit => [.kw "("] ++ basic ++ [.kw ") != 0"]
  | .expression => g.wrap h.column
  | .nested => paren (joinClauses ((h.query.map fun q => (sub q).havings).getD []))
  | .bitwise => if g.dialect = .postgres then [.kw "("] ++ basic ++ [.kw ")::bool"] else basic
  | .basic => basic

end Grammar

end Hesape.Query
