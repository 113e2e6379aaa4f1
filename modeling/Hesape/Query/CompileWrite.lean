import Hesape.Query.Scope
import Hesape.Sql.Write

/-!
# Compiling an update and a delete

`Update` and `Delete` go through the same door as a read and then compile the scoped copy.
The set list, the way the joins are written and the order of the bindings are each dialect's
own: MySQL joins inline, Postgres and SQLite send a statement with joins or a limit through a
select of row identifiers, and Postgres has `update ... from` besides.

The text and the bindings come from two functions, as they do in the source:
`compileUpdateColumns` against `prepareBindingsForUpdate`.
-/

namespace Hesape.Query

open Sql (Tok Conn Cond Source KeyMap commaSep paren Write)

/-! ### Column names as map keys -/

def hasArrow : List Char → Bool
  | '-' :: '>' :: _ => true
  | _ :: r => hasArrow r
  | [] => false

def isJSONSelector (key : String) : Bool := hasArrow key.toList

/-- `strings.Split(s, "->")`. -/
def splitArrow : List Char → List (List Char)
  | [] => [[]]
  | '-' :: '>' :: r => [] :: splitArrow r
  | c :: r =>
    match splitArrow r with
    | [] => [[c]]
    | s :: ss => (c :: s) :: ss

/-- What follows the last dot. -/
def afterLastDot (s : List Char) : List Char := s.rtakeWhile (· ≠ '.')

/-- `lastSegment` with a dot, for a key that lowering leaves letter by letter in its place. -/
def lastSegment (key : String) : String := String.ofList (afterLastDot key.toList)

/-- What follows the first dot. -/
def afterDot (key : String) : String :=
  match key.toList.dropWhile (· ≠ '.') with
  | [] => key
  | _ :: r => String.ofList r

/-- A key as a column: the dots of its field and the arrows of its path. -/
def parseColumn (key : String) : Column :=
  let parts := (splitArrow key.toList).map String.ofList
  let segments := splitText '.' (parts.head?.getD "")
  { qualifier := if segments.length ≤ 1 then none else some (joinText "." segments.dropLast)
    name := segments.getLast?.getD ""
    path := parts.tail }

/-- Space and identifier quotes. -/
def inCutset (c : Char) : Bool := c ∈ [' ', '\t', '\r', '\n', '"', Char.ofNat 96, '[', ']']

/-- `bareColumn`: a name without space, qualifier or identifier quotes. -/
def bareColumn (name : String) : String :=
  String.ofList (Text.trim inCutset (afterLastDot (Text.trim Text.isSpace name.toList)))

/-- `NamesColumn`. -/
def namesColumn (key column : String) : Bool :=
  !column.isEmpty && (bareColumn key).toLower == (bareColumn column).toLower

/-! ### Values -/

/-- A value of an update: bound, or a builder that becomes a subquery. -/
inductive UpdateValue
  | val (v : Val)
  | sub (t : Tree)

namespace Val

/-- `isStructured`: a slice or a map. -/
def isStructured : Val → Bool
  | list _ => true
  | map _ => true
  | _ => false

def isBool : Val → Bool
  | bool _ => true
  | _ => false

/-- `setPath`: the value at the end of a path of nested maps. -/
def setPath (v : Val) : List String → List (String × Val) → List (String × Val)
  | [], m => m
  | [k], m => Sql.insertEntry k v m
  | k :: ks, m =>
    let next := match m.lookup k with
      | some (.map n) => n
      | _ => []
    Sql.insertEntry k (.map (setPath v ks next)) m

end Val

/-- `prepareUpdateValues` at one value: what the statement says and what it binds. -/
def prepareValue (prog : Nat → List Action) (g : Grammar) (grant : Grant) :
    UpdateValue → Except Err (Val × Val)
  | .val v => .ok (v, v)
  | .sub t =>
    (scopedFor prog g grant t).bind fun s => (toSql g s).map fun p =>
      (.expr (Sql.render (paren p.1.toks)) p.2, .list p.2)

/-- The two maps an update hands to the grammar, as one map of pairs.  A value under the tenant
column, however it is spelt, is the grant's tenant. -/
def prepareUpdateValues (prog : Nat → List Action) (g : Grammar) (grant : Grant)
    (values : KeyMap UpdateValue) : Except Err (KeyMap (Val × Val)) :=
  (tenantFor grant).bind fun tenant =>
    let own := values.filter fun k _ => !namesColumn k tenantColumn
    let tenants := values.filter fun k _ => namesColumn k tenantColumn
    (mapE (fun e => (prepareValue prog g grant e.2).map fun p => (e.1, p)) own.entries).map fun es =>
      if tenants.entries.isEmpty then .ofList es
      else (KeyMap.ofList es).insert tenantColumn (.str tenant, .str tenant)

namespace Grammar

variable (g : Grammar)

/-! ### The set list -/

/-- `encodeJSON`, where it succeeds. -/
def encoded (json : Val → Option String) (v : Val) : Val := ((json v).map Val.str).getD v

/-- `jsonBinding` and its siblings: what a grammar sends for a value of an update. -/
def prepared (json : Val → Option String) (key : String) (v : Val) : Val :=
  if v.isStructured || g.dialect = .postgres && isJSONSelector key && !v.isExpression then
    encoded json v
  else v

/-- `Parameter`, the placeholder standing for what the grammar sends. -/
def setParameter (said bound : Val) : List (Tok Val) :=
  match said with
  | .expr sql args => [.raw sql args]
  | _ => [.param bound]

/-- MySQL sets one path of a document with `json_set`; a boolean is written out. -/
def mysqlSet (json : Val → Option String) (key : String) (said bound : Val) : List (Tok Val) :=
  let c := parseColumn key
  if isJSONSelector key then
    let value := match said with
      | .bool true => [.kw "true"]
      | .bool false => [.kw "false"]
      | v => if v.isStructured then [.kw "cast(", .param (g.prepared json key bound), .kw " as json)"]
        else setParameter v (g.prepared json key bound)
    [.quoted (g.jsonField c), .kw " = json_set(", .quoted (g.jsonField c ++ jsonPathArg c), .kw ", "]
      ++ value ++ [.kw ")"]
  else [.quoted (g.wrapColumn c), .kw " = "] ++ setParameter said (g.prepared json key bound)

/-- The array literal of a Postgres path, inside a string literal. -/
def postgresPath (path : List String) : String :=
  let keys := (path.flatMap parseJSONPathArrayKeys).map fun key =>
    if isIndex key then key
    else "\"" ++ replaceChar '"' "\\\"" (replaceChar '\\' "\\\\" key) ++ "\""
  "'\x7b" ++ replaceChar '\'' "''" (joinText "," keys) ++ "\x7d'"

/-- Postgres drops the table of a set column. -/
def postgresSet (json : Val → Option String) (key : String) (said bound : Val) : List (Tok Val) :=
  let c := parseColumn (lastSegment key)
  if isJSONSelector key then
    [.quoted (g.jsonField c), .kw " = jsonb_set(",
        .quoted (g.jsonField c ++ "::jsonb, " ++ postgresPath c.path), .kw ", "]
      ++ setParameter said (g.prepared json key bound) ++ [.kw ")"]
  else [.quoted (g.wrapColumn c), .kw " = "] ++ setParameter said (g.prepared json key bound)

/-- `groupJSONColumnsForUpdate`: the JSON paths as the documents they describe. -/
def groupJSONColumnsForUpdate (values : KeyMap Val) : KeyMap Val :=
  .ofList (values.entries.foldl (fun m e =>
    if isJSONSelector e.1 then
      Val.setPath e.2 (((splitText '.' (afterDot e.1)).flatMap fun s =>
        (splitArrow s.toList).map String.ofList)) m
    else m) [])

/-- The values SQLite sets: those without a path, and a patch for each document. -/
def sqliteMerged (values : KeyMap Val) : KeyMap Val :=
  (values.filter fun k _ => !isJSONSelector k).merge (groupJSONColumnsForUpdate values)

def sqliteSet (json : Val → Option String) (patched : Bool) (key : String) (said bound : Val) :
    List (Tok Val) :=
  let column := g.wrapColumn (parseColumn (lastSegment key))
  let value := setParameter said (g.prepared json key bound)
  if patched then
    [.quoted column, .kw " = ", .quoted ("json_patch(ifnull(" ++ column ++ ", json('\x7b\x7d')), json("),
      ] ++ value ++ [.kw "))"]
  else [.quoted column, .kw " = "] ++ value

/-- `CompileUpdateColumns`.  A value is what the statement says and what is bound for it. -/
def compileUpdateColumns (json : Val → Option String) (values : KeyMap (Val × Val)) :
    List (Tok Val) :=
  match g.dialect with
  | .mysql | .mariadb => commaSep (values.entries.map fun e => g.mysqlSet json e.1 e.2.1 e.2.2)
  | .postgres => commaSep (values.entries.map fun e => g.postgresSet json e.1 e.2.1 e.2.2)
  | .sqlite =>
    let said := values.map fun _ p => p.1
    let bound := values.map fun _ p => p.2
    let groups := groupJSONColumnsForUpdate said
    -- The two maps have the same keys, so their merged entries go in pairs.
    commaSep (((sqliteMerged said).entries.zip (sqliteMerged bound).entries).map fun e =>
      g.sqliteSet json (groups.keys.contains e.1.1) e.1.1 e.1.2 e.2.2)

/-! ### Bindings -/

/-- The segments a write keeps, `join` and `where` where the caller puts them. -/
def restBindings (b : Bindings) : List Val :=
  b .groupBy ++ b .having ++ b .order ++ b .union ++ b .unionOrder

/-- The values of the set list in the order they are sent. -/
def valueBindings (json : Val → Option String) (values : KeyMap Val) : List Val :=
  match g.dialect with
  | .mysql | .mariadb =>
    -- A boolean under a JSON path is written into the statement.
    ((values.filter fun k v => !(isJSONSelector k && v.isBool)).map (g.prepared json)).entries.map
      Prod.snd
  | .postgres => (values.map (g.prepared json)).entries.map Prod.snd
  | .sqlite => ((sqliteMerged values).map (g.prepared json)).entries.map Prod.snd

/-- `PrepareBindingsForUpdate`; only the base order has the joins in front of the values. -/
def prepareBindingsForUpdate (json : Val → Option String) (b : Bindings) (values : KeyMap Val) :
    List Val :=
  let vs := g.valueBindings json values
  if g.isMySQL then b .join ++ vs ++ b .from ++ b .where ++ restBindings b
  else vs ++ b .from ++ b .join ++ b .where ++ restBindings b

/-- `PrepareBindingsForUpdateFrom`. -/
def prepareBindingsForUpdateFrom (json : Val → Option String) (b : Bindings) (values : KeyMap Val) :
    List Val :=
  g.valueBindings json values ++ b .where ++ b .from ++ b .join ++ restBindings b

/-- `PrepareBindingsForDelete`. -/
def prepareBindingsForDelete (b : Bindings) : List Val :=
  b .from ++ b .join ++ b .where ++ restBindings b

/-! ### Statements -/

/-- The table a statement writes to. -/
def writeSource {Q : Type} (s : Builder Q) : Source Val := (s.table.map g.compileSource).getD (.raw [])

/-- The name the statement knows its own table by. -/
def ownLabel {Q : Type} (s : Builder Q) : String :=
  match s.table with
  | some (.table t) => t.label
  | some (.sub _ as) => as
  | _ => ""

/-- The name as MySQL writes it in front of `from`. -/
def aliasText {Q : Type} (s : Builder Q) : String :=
  match s.table with
  | some (.table t) => (t.called.map fun a => g.wrapValue (g.tablePrefix ++ a)).getD (g.wrapTableName t.name)
  | some (.sub _ as) => g.wrapTableName as
  | _ => ""

/-- MySQL takes an order and a limit; nobody else is asked for one here. -/
def orderAndLimit {Q : Type} (s : Builder Q) : List (Tok Val) :=
  if g.isMySQL then g.compileOrders s.orders ++ compileLimit s.limit else []

/-- The engine's identifier of a row. -/
def rowId : String := if g.dialect = .postgres then "ctid" else "rowid"

/-- Postgres and SQLite have neither joins nor a limit here. -/
def usesRowIds {Q : Type} (s : Builder Q) : Bool :=
  !g.isMySQL && (!s.joins.isEmpty || s.limit.isSome)

/-- The select that finds the rows, compiled from a copy. -/
def rowIdSelect (s : Builder Tree) : Sql.Query Val :=
  (g.compile (.node (s.select [.name (.of (ownLabel s) g.rowId)]))).query

def setToks (json : Val → Option String) (values : KeyMap (Val × Val)) : List (Tok Val) :=
  .kw " set " :: g.compileUpdateColumns json values

/-- `CompileUpdate`. -/
def compileUpdate (json : Val → Option String) (s : Builder Tree) (values : KeyMap (Val × Val)) :
    Write Val :=
  let sets := g.setToks json values
  if g.usesRowIds s then
    .rowIds g.rowId [.kw "update "] (g.writeSource s)
      (sets ++ [.kw " where ", .quoted (g.wrapValue g.rowId), .kw " in "]) (g.rowIdSelect s)
  else if s.joins.isEmpty then
    .joined (g.writeSource s).tableLabels [.kw "update "] (g.writeSource s) [] sets
      (g.whereClauses g.compile s.wheres) (g.orderAndLimit s)
  else
    -- The set list may name a column of any table joined.
    .joined ((g.writeSource s).tableLabels ++ Sql.joinsTableLabels (g.compileJoins g.compile s.joins))
      [.kw "update "] (g.writeSource s) (g.compileJoins g.compile s.joins) sets
      (g.whereClauses g.compile s.wheres) []

/-- The join conditions an update-from folds into its own, each after its own word. -/
def compileUpdateJoinWheres (s : Builder Tree) : List (Conn × Cond Val) :=
  s.joins.flatMap fun j => (g.compile j.builder).wheres

/-- `CompileUpdateFrom`. -/
def compileUpdateFrom (json : Val → Option String) (s : Builder Tree) (values : KeyMap (Val × Val)) :
    Write Val :=
  .listed [.kw "update "] (g.writeSource s) (g.setToks json values)
    (s.joins.map fun j => g.compileSource j.table)
    (g.whereClauses g.compile s.wheres ++ g.compileUpdateJoinWheres s)

/-- `CompileDelete`. -/
def compileDelete (s : Builder Tree) : Write Val :=
  if g.usesRowIds s then
    .rowIds g.rowId [.kw "delete from "] (g.writeSource s)
      [.kw " where ", .quoted (g.wrapValue g.rowId), .kw " in "] (g.rowIdSelect s)
  else if s.joins.isEmpty then
    .joined (g.writeSource s).tableLabels [.kw "delete from "] (g.writeSource s) []
      [] (g.whereClauses g.compile s.wheres) (g.orderAndLimit s)
  else
    .joined (g.writeSource s).tableLabels
      [.kw "delete ", .quoted (g.aliasText s), .kw " from "] (g.writeSource s)
      (g.compileJoins g.compile s.joins) [] (g.whereClauses g.compile s.wheres) (g.orderAndLimit s)

end Grammar

/-! ### Running a write -/

/-- What a write is: its text and the values sent with it. -/
structure WriteStatement where
  write : Write Val
  bindings : List Val

/-- Every placeholder is sent the value it was written for. -/
def WriteStatement.Sent (w : WriteStatement) : Prop := Sql.Aligned w.write.toks w.bindings

instance (w : WriteStatement) : Decidable w.Sent := inferInstanceAs (Decidable (_ = _))

section Run

variable (prog : Nat → List Action) (g : Grammar) (json : Val → Option String) (grant : Grant)

/-- `writeScoped`: a grant that only reads is refused. -/
def writeScoped (t : Tree) : Except Err Tree :=
  if grant.writable then scopedFor prog g grant t else .error .readOnlyGrant

/-- The scoped copy and the values of an update, callbacks drained around both. -/
def prepareUpdate (t : Tree) (values : KeyMap UpdateValue) :
    Except Err (Builder Tree × KeyMap (Val × Val)) :=
  (writeScoped prog g grant t).bind fun s => (settle prog g s).bind fun s =>
    (prepareUpdateValues prog g grant values).bind fun vs =>
      (settle prog g s).map fun s => (s.builder, vs)

/-- `Update`. -/
def update (t : Tree) (values : KeyMap UpdateValue) : Except Err WriteStatement :=
  (prepareUpdate prog g grant t values).map fun p =>
    ⟨g.compileUpdate json p.1 p.2,
      cleanBindings (g.prepareBindingsForUpdate json p.1.bindings (p.2.map fun _ v => v.2))⟩

/-- `UpdateFrom`, which only Postgres compiles. -/
def updateFrom (t : Tree) (values : KeyMap UpdateValue) : Except Err WriteStatement :=
  if g.dialect ≠ .postgres then
    .error (.message "query: this database engine does not support the updateFrom method")
  else
    (prepareUpdate prog g grant t values).map fun p =>
      ⟨g.compileUpdateFrom json p.1 p.2,
        cleanBindings (g.prepareBindingsForUpdateFrom json p.1.bindings (p.2.map fun _ v => v.2))⟩

/-- The clause an id adds to the builder itself. -/
def Builder.forId (b : Builder Tree) : Option Val → Builder Tree
  | some .null => b
  | some id => b.addWhere g .and (.name (b.qualify "id")) "=" id
  | none => b

/-- The id is one more clause and nothing else. -/
theorem forId_frame (b : Builder Tree) (id : Option Val) :
    (b.forId g id).joins = b.joins ∧ (b.forId g id).unions = b.unions
      ∧ (b.forId g id).limit = b.limit ∧ (b.forId g id).table = b.table
      ∧ (b.forId g id).callbacks = b.callbacks := by
  have hwhere : ∀ c v, (b.addWhere g .and c "=" v).joins = b.joins
      ∧ (b.addWhere g .and c "=" v).unions = b.unions ∧ (b.addWhere g .and c "=" v).limit = b.limit
      ∧ (b.addWhere g .and c "=" v).table = b.table
      ∧ (b.addWhere g .and c "=" v).callbacks = b.callbacks := by
    intro c v
    unfold Builder.addWhere Builder.withOperator
    split
    · exact ⟨rfl, rfl, rfl, rfl, rfl⟩
    · split <;> exact ⟨rfl, rfl, rfl, rfl, rfl⟩
  unfold Builder.forId
  split
  · exact ⟨rfl, rfl, rfl, rfl, rfl⟩
  · exact hwhere _ _
  · exact ⟨rfl, rfl, rfl, rfl, rfl⟩

/-- `Delete`, the optional id added to the caller's clauses. -/
def delete (t : Tree) (id : Option Val) : Except Err WriteStatement :=
  (writeScoped prog g grant (.node (t.builder.forId g id))).bind fun s =>
    (settle prog g s).map fun s =>
      ⟨g.compileDelete s.builder, cleanBindings (Grammar.prepareBindingsForDelete s.builder.bindings)⟩

end Run

end Hesape.Query
