import Hesape.Query.CompileWhere

/-!
# Compiling a select

`compile g t` is everything the grammar `g` makes of the builder `t`: the select itself, and
the pieces other builders take from it when they refer to it (its where clauses as a nested
group or a join condition, its havings as a nested having, its joins as nested joins).

The equations the rest of the development uses are `compile_node` and the simp lemmas for
the four fields; `compileBuilder` is one step of the recursion, the references already
compiled by `sub`.
-/

namespace Hesape.Query

open Sql (Tok Conn Cond commaSep joinClauses after Item Source Join)

namespace Grammar

variable (g : Grammar)

/-- A table position as a source of rows. -/
def compileSource : TableArg → Source Val
  | .table t => .table t.name t.label [.quoted (g.wrapTableText t)]
  | .expr sql args => .raw [.raw sql args]
  | .sub q as => .derived [] q [.kw " as ", .quoted (g.wrapTableName as)] as

/-- A member of the select list. -/
def compileItem : ColArg → Item Val
  | .sub prefixed q as =>
    .sub (if prefixed then [.kw "exists "] else []) q
      ((as.map fun a => [Tok.kw " as ", .quoted (g.wrapValue a)]).getD [])
  | c => .text (g.wrap c)

/-! ### Joins -/

/-- The word in front of the joined table.  Only MySQL spells a straight join. -/
def joinWord : Sql.JoinKind → List (Tok Val)
  | .inner => [.kw "inner join "]
  | .left => [.kw "left join "]
  | .right => [.kw "right join "]
  | .cross => [.kw "cross join "]
  | .straight => if g.isMySQL then [.kw "straight_join "] else [.kw "straight_join join "]

def lateralWord : Sql.JoinKind → List (Tok Val)
  | .inner => [.kw "inner join lateral "]
  | .left => [.kw "left join lateral "]
  | .right => [.kw "right join lateral "]
  | .cross => [.kw "cross join lateral "]
  | .straight => [.kw "straight_join join lateral "]

def supportsLateral : Bool := g.dialect = .mysql ∨ g.dialect = .postgres

/-- One join: its table, the joins of its own builder and that builder's clauses as the
condition. -/
def compileJoin {Q : Type} (sub : Q → Compiled) (j : JoinClause Q) : Join Val :=
  if j.lateral then
    if g.supportsLateral then
      .lateral j.kind (lateralWord j.kind) (g.compileSource j.table) (sub j.builder).joins
        [.kw " on true"]
    else
      .text [.quoted "/* query/grammars: this database engine does not support lateral joins */",
        .kw " unsupported join"]
  else
    .on j.kind (g.joinWord j.kind) (g.compileSource j.table) (sub j.builder).joins
      (sub j.builder).wheres

/-! ### Components -/

def aggregateColumns (distinct : Option Distinct) (columns : List ColArg) : List (Tok Val) :=
  let column := g.columnize columns
  match distinct with
  | some (.on cs) => .kw "distinct " :: g.columnize cs
  | some .plain => if Sql.render column ≠ "*" then .kw "distinct " :: column else column
  | none => column

/-- The aggregate, or the word the select list follows. -/
def selectHead {Q : Type} (b : Builder Q) : List (Tok Val) :=
  match b.aggregate with
  | some a =>
    [.kw "select", .kw " ", .raw a.function [], .kw "("] ++ g.aggregateColumns b.distinct a.columns
      ++ [.kw ") as aggregate"]
  | none =>
    match b.distinct with
    | none => [.kw "select", .kw " "]
    | some .plain => [.kw "select", .kw " distinct "]
    | some (.on cs) =>
      if g.dialect = .postgres then [.kw "select", .kw " distinct on ("] ++ g.columnize cs ++ [.kw ") "]
      else [.kw "select", .kw " distinct "]

/-- An aggregate replaces the select list. -/
def selectItems {Q : Type} (b : Builder Q) : List (Item Val) :=
  match b.aggregate with
  | some _ => []
  | none => (b.columns.getD [.name (.bare "*")]).map g.compileItem

def indexNameOk (s : String) : Bool :=
  !s.isEmpty && s.toList.all fun c => c.isAlphanum || c == '_' || c == '$'

def compileIndexHint : Option IndexHint → List (Tok Val)
  | none => []
  | some h =>
    match g.dialect with
    | .mysql | .mariadb =>
      if (splitText ',' h.index).all fun n => indexNameOk (Text.trimText n) then
        [.quoted ((match h.typ with
          | "hint" => " use index ("
          | "force" => " force index ("
          | _ => " ignore index (") ++ h.index ++ ")")]
      else []
    | .sqlite => if h.typ = "force" && indexNameOk h.index then [.quoted (" indexed by " ++ h.index)] else []
    | .postgres => []

def compileGroups (groups : List ColArg) : List (Tok Val) := after [.kw " group by "] (g.columnize groups)

def compileHavings {Q : Type} (sub : Q → Compiled) (hs : List (Having Q)) :
    List (Conn × List (Tok Val)) :=
  hs.map fun h => (h.boolean, g.compileHaving sub h)

def compileOrder (o : Order) : List (Tok Val) :=
  match o.sql with
  | some (sql, args) => [.raw sql args]
  | none => g.wrap o.column ++ [.kw " ", .op o.direction]

def compileOrders (os : List Order) : List (Tok Val) :=
  after [.kw " order by "] (commaSep (os.map g.compileOrder))

def compileLimit (limit : Option Nat) : List (Tok Val) :=
  (limit.map fun n => [Tok.kw " limit ", .num n]).getD []

def compileOffset (offset : Option Nat) : List (Tok Val) :=
  (offset.map fun n => [Tok.kw " offset ", .num n]).getD []

def compileLock : Option Lock → List (Tok Val)
  | none => []
  | some l =>
    match g.dialect, l with
    | .sqlite, _ => []
    | _, .text s => if s.isEmpty then [] else [.kw " ", .raw s []]
    | _, .flag true => [.kw " for update"]
    | .postgres, .flag false => [.kw " for share"]
    | _, .flag false => [.kw " lock in share mode"]

/-! ### The select -/

section Select

variable {Q : Type} (sub : Q → Compiled) (b : Builder Q)

/-- `whereClauses`. -/
def whereClauses (ws : List (Where Q)) : List (Conn × Cond Val) :=
  ws.map fun w => (w.boolean, g.compileWhere sub w)

def compileJoins (js : List (JoinClause Q)) : List (Join Val) := js.map (g.compileJoin sub)

/-- Everything before the orders. -/
def groupsAndHavings : List (Tok Val) :=
  g.compileGroups b.groups ++ after [.kw " having "] (joinClauses (g.compileHavings sub b.havings))

/-- The select of one builder, its unions aside: `items` and `tail` are the parts the callers
vary. -/
def selectWith (items : List (Item Val)) (tail : List (Tok Val)) : Sql.Query Val :=
  .select (g.selectHead b) items (b.table.map g.compileSource) (g.compileIndexHint b.indexHint)
    (g.compileJoins sub b.joins) (g.whereClauses sub b.wheres) tail

def openUnion : List (Tok Val) :=
  if g.dialect = .sqlite then [.kw "select * from ("] else [.kw "("]

/-- `compileSelectWithoutGroupLimit`. -/
def compilePlain : Sql.Query Val :=
  let core := g.selectWith sub b (g.selectItems b)
    (g.groupsAndHavings sub b ++ g.compileOrders b.orders ++ compileLimit b.limit
      ++ compileOffset b.offset ++ g.compileLock b.lock)
  if b.unions.isEmpty then core
  else .compound
    ((g.openUnion, core) :: b.unions.map fun u =>
      ([.kw ")", if u.all then .kw " union all " else .kw " union "] ++ g.openUnion,
        (sub u.query).query))
    ([.kw ")"] ++ g.compileOrders b.unionOrders ++ compileLimit b.unionLimit
      ++ compileOffset b.unionOffset)

def rowNumberToks (limit : GroupLimit) : List (Tok Val) :=
  [.kw "row_number() over (partition by ", .quoted (g.wrapColumn limit.column)]
    ++ g.compileOrders b.orders ++ [.kw ") as ", .quoted (g.wrapValue "laravel_row")]

/-- The windowed form of a group limit: the orders move into the select list. -/
def compileRowNumber (limit : GroupLimit) : Sql.Query Val :=
  let number : Item Val :=
    .text ((if b.aggregate.isSome then [.kw ", "] else []) ++ g.rowNumberToks b limit)
  let inner := g.selectWith sub b (g.selectItems b ++ [number])
    (g.groupsAndHavings sub b ++ compileLimit b.limit ++ g.compileLock b.lock)
  let row : Tok Val := .quoted (g.wrapValue "laravel_row")
  .compound [([.kw "select", .kw " * from ("], inner)]
    ([.kw ") as ", .quoted (g.wrapValue "laravel_table"), .kw " where ", row, .kw " <= ",
        .num (limit.value + b.offset.getD 0)]
      ++ (b.offset.map fun n => [.kw " and ", row, .kw " > ", Tok.num n]).getD []
      ++ [.kw " order by ", row])

/-- MySQL before window functions: the orders stay, after one on the group's column. -/
def compileLegacyGroupLimit (limit : GroupLimit) : Sql.Query Val :=
  let column := g.wrapValue limit.column.name
  let inner := g.selectWith sub b (g.selectItems b)
    (g.groupsAndHavings sub b
      ++ g.compileOrders ({ column := .name limit.column, direction := "asc" } :: b.orders)
      ++ compileLimit b.limit ++ g.compileLock b.lock)
  let row : Tok Val := .quoted (g.wrapValue "laravel_row")
  .compound [([.kw "select", .kw " ", .quoted (g.wrapValue "laravel_table" ++ ".*"),
      .quoted (", @laravel_row := if(@laravel_group = " ++ column ++ ", @laravel_row + 1, 1) as "
        ++ g.wrapValue "laravel_row" ++ ", @laravel_group := " ++ column),
      .quoted (" from (select @laravel_row := 0, @laravel_group := 0) as "
        ++ g.wrapValue "laravel_vars" ++ ", "), .kw "("], inner)]
    ([.kw ") as ", .quoted (g.wrapValue "laravel_table"), .kw " having ", row, .kw " <= ",
        .num (limit.value + b.offset.getD 0)]
      ++ (b.offset.map fun n => [.kw " and ", row, .kw " > ", Tok.num n]).getD []
      ++ [.kw " order by ", row])

/-- Whether a group limit is compiled with a window function. -/
def windowed : Bool :=
  match g.dialect with
  | .mysql | .sqlite => g.windowFunctions
  | .mariadb | .postgres => true

def compileGroupLimit (limit : GroupLimit) : Sql.Query Val :=
  if g.windowed then g.compileRowNumber sub b limit
  else if g.dialect = .mysql then g.compileLegacyGroupLimit sub b limit
  else g.compilePlain sub b

/-- MySQL's execution time hint goes after a leading `select`. -/
def withTimeout (timeout : Option Nat) (q : Sql.Query Val) : Sql.Query Val :=
  match timeout with
  | none => q
  | some t =>
    if g.isMySQL then
      let hint : Tok Val := .quoted (" /*+ MAX_EXECUTION_TIME(" ++ toString (t * 1000) ++ ") */")
      match q with
      | .select (.kw "select" h :: head) items src ix js ws tail =>
        .select (.kw "select" h :: hint :: head) items src ix js ws tail
      | .compound ((.kw "select" h :: pre, q) :: ps) tail =>
        .compound ((.kw "select" h :: hint :: pre, q) :: ps) tail
      | q => q
    else q

/-- `CompileSelect` without the union aggregate. -/
def compileUnaggregated : Sql.Query Val :=
  g.withTimeout b.timeout
    (match b.groupLimit with
      | some limit => g.compileGroupLimit sub b limit
      | none => g.compilePlain sub b)

/-- An aggregate over a union or over groups counts the rows of the whole select. -/
def compileUnionAggregate (a : Aggregate) : Sql.Query Val :=
  .compound
    [([.kw "select", .kw " ", .raw a.function [], .kw "("] ++ g.aggregateColumns b.distinct a.columns
        ++ [.kw ") as aggregate from ("],
      g.compileUnaggregated sub { b with aggregate := none })]
    [.kw ") as ", .quoted (g.wrapTableName "temp_table")]

/-- `CompileSelect`. -/
def compileSelect : Sql.Query Val :=
  match b.aggregate with
  | some a =>
    if b.unions.isEmpty && b.havings.isEmpty then g.compileUnaggregated sub b
    else g.withTimeout b.timeout (g.compileUnionAggregate sub b a)
  | none => g.compileUnaggregated sub b

/-- One step of the compilation. -/
def compileBuilder : Compiled where
  query := g.compileSelect sub b
  wheres := g.whereClauses sub b.wheres
  havings := g.compileHavings sub b.havings
  joins := g.compileJoins sub b.joins

end Select

/-- Everything a grammar makes of a builder. -/
def compile : Tree → Compiled := Tree.para fun b => g.compileBuilder Prod.snd b

/-! ### The recursion equation -/

section Map

variable {A B : Type} (sub : B → Compiled) (f : A → B)

@[simp] theorem compileWhere_map (w : Where A) :
    g.compileWhere sub (w.map f) = g.compileWhere (fun a => sub (f a)) w := by
  obtain ⟨_, c, _, _, _, o, v, _, _, _, n, _, q, _⟩ := w
  cases q <;> rfl

@[simp] theorem compileHaving_map (h : Having A) :
    g.compileHaving sub (h.map f) = g.compileHaving (fun a => sub (f a)) h := by
  obtain ⟨_, c, o, v, _, _, n, _, _, q⟩ := h
  cases q <;> rfl

@[simp] theorem compileJoin_map (j : JoinClause A) :
    g.compileJoin sub (j.map f) = g.compileJoin (fun a => sub (f a)) j := rfl

theorem whereClauses_map (ws : List (Where A)) :
    g.whereClauses sub (ws.map (Where.map f)) = g.whereClauses (fun a => sub (f a)) ws := by
  simp only [whereClauses, List.map_map, Function.comp_def, compileWhere_map]
  rfl

theorem compileHavings_map (hs : List (Having A)) :
    g.compileHavings sub (hs.map (Having.map f)) = g.compileHavings (fun a => sub (f a)) hs := by
  simp only [compileHavings, List.map_map, Function.comp_def, compileHaving_map]
  rfl

theorem compileJoins_map (js : List (JoinClause A)) :
    g.compileJoins sub (js.map (JoinClause.map f)) = g.compileJoins (fun a => sub (f a)) js := by
  simp only [compileJoins, List.map_map, Function.comp_def, compileJoin_map]

variable (b : Builder A)
include b

theorem selectWith_map (items : List (Item Val)) (tail : List (Tok Val)) :
    g.selectWith sub (b.map f) items tail = g.selectWith (fun a => sub (f a)) b items tail := by
  simp only [selectWith, Builder.map, compileJoins_map, whereClauses_map]
  rfl

theorem groupsAndHavings_map :
    g.groupsAndHavings sub (b.map f) = g.groupsAndHavings (fun a => sub (f a)) b := by
  simp only [groupsAndHavings, Builder.map, compileHavings_map]

theorem compilePlain_map :
    g.compilePlain sub (b.map f) = g.compilePlain (fun a => sub (f a)) b := by
  simp only [compilePlain, selectWith_map, groupsAndHavings_map]
  simp only [Builder.map, List.isEmpty_map, List.map_map]
  rfl

theorem compileGroupLimit_map (limit : GroupLimit) :
    g.compileGroupLimit sub (b.map f) limit = g.compileGroupLimit (fun a => sub (f a)) b limit := by
  simp only [compileGroupLimit, compileRowNumber, compileLegacyGroupLimit, selectWith_map,
    groupsAndHavings_map, compilePlain_map]
  rfl

theorem compileUnaggregated_map :
    g.compileUnaggregated sub (b.map f) = g.compileUnaggregated (fun a => sub (f a)) b := by
  simp only [compileUnaggregated, compileGroupLimit_map, compilePlain_map]
  rfl

theorem compileBuilder_map :
    g.compileBuilder sub (b.map f) = g.compileBuilder (fun a => sub (f a)) b := by
  have hq : g.compileSelect sub (b.map f) = g.compileSelect (fun a => sub (f a)) b := by
    have hu : ∀ a, g.compileUnionAggregate sub (b.map f) a
        = g.compileUnionAggregate (fun a => sub (f a)) b a := fun a => by
      simp only [compileUnionAggregate]
      rw [show ({ b.map f with aggregate := none } : Builder B)
        = ({ b with aggregate := none } : Builder A).map f from rfl, compileUnaggregated_map]
      rfl
    simp only [compileSelect, compileUnaggregated_map, hu]
    simp only [Builder.map, List.isEmpty_map]
  rw [compileBuilder, compileBuilder, hq]
  simp only [Builder.map, whereClauses_map, compileHavings_map, compileJoins_map]

end Map

variable (b : Builder Tree)
include b

/-- Compilation goes builder by builder. -/
theorem compile_node : g.compile (.node b) = g.compileBuilder g.compile b := by
  rw [compile, Tree.para_node, compileBuilder_map]

@[simp] theorem compile_wheres :
    (g.compile (.node b)).wheres = g.whereClauses g.compile b.wheres := by
  rw [compile_node]; rfl

@[simp] theorem compile_joins :
    (g.compile (.node b)).joins = g.compileJoins g.compile b.joins := by
  rw [compile_node]; rfl

@[simp] theorem compile_query :
    (g.compile (.node b)).query = g.compileSelect g.compile b := by
  rw [compile_node]; rfl

end Grammar

end Hesape.Query
