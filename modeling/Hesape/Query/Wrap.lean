import Hesape.Query.Operators
import Hesape.Text.Digits

/-!
# Quoting names

How a grammar writes a column or a table.  Everything here ends up between quotes or is
made of them, so a `?` in a name is never a placeholder: the wrapped text is one `quoted`
token.
-/

namespace Hesape.Query

open Sql (Tok paren commaSep)

/-- `strings.Split` at one character. -/
def splitText (sep : Char) (s : String) : List String :=
  (s.toList.splitOn sep).map String.ofList

def joinText (sep : String) : List String → String
  | [] => ""
  | [s] => s
  | s :: r => s ++ sep ++ joinText sep r

/-- `strings.ReplaceAll` of one character. -/
def replaceChar (c : Char) (by_ : String) (s : String) : String :=
  String.ofList (s.toList.flatMap fun x => if x = c then by_.toList else [x])

namespace Grammar

variable (g : Grammar)

def isMySQL : Bool := g.dialect = .mysql ∨ g.dialect = .mariadb

def quoteChar : Char := if g.isMySQL then Char.ofNat 96 else '"'

def wrapValue (value : String) : String :=
  if value = "*" then value
  else
    let q := String.singleton g.quoteChar
    q ++ replaceChar g.quoteChar (q ++ q) value ++ q

/-- The prefix goes on the last segment of a dotted table name. -/
def wrapTableName (name : String) : String :=
  let segments := splitText '.' name
  joinText "." ((segments.dropLast ++ (segments.getLast?.map (g.tablePrefix ++ ·)).toList).map
    g.wrapValue)

/-- A dotted column name; what stands before the first dot is a table. -/
def wrapSegments : List String → String
  | [] => ""
  | [s] => g.wrapValue s
  | s :: r => joinText "." (g.wrapTableName s :: r.map g.wrapValue)

/-- `strconv.Atoi` reads it. -/
def isIndex (s : String) : Bool := (Text.parseInt s.toList).isSome

/-- The bodies of `[a][b]`, up to the end of the text and none of them empty; `body` is what has
been read since a bracket was opened. -/
def bracketed : Option (List Char) → List Char → Option (List (List Char))
  | none, '[' :: r => bracketed (some []) r
  | none, _ => none
  | some _, [] => none
  | some body, ']' :: r =>
    if body.isEmpty then none else if r.isEmpty then some [body] else (bracketed none r).map (body :: ·)
  | some body, c :: r => bracketed (some (body ++ [c])) r

/-- `jsonPathArrayKeys`: the first place from which nothing but brackets follows, as what stands
before it and the bodies. -/
def arrayKeys : List Char → Option (List Char × List (List Char))
  | [] => none
  | c :: r =>
    match bracketed none (c :: r) with
    | some keys => some ([], keys)
    | none => (arrayKeys r).map fun p => (c :: p.1, p.2)

/-- One segment of a JSON path as MySQL and SQLite write it: `"key"`, `"key"[0]`, `[0]`. -/
def wrapJSONPathSegment (segment : String) : String :=
  match arrayKeys segment.toList with
  | some (key, keys) =>
    (if key.isEmpty then "" else "\"" ++ String.ofList key ++ "\"")
      ++ String.join (keys.map fun k => "[" ++ String.ofList k ++ "]")
  | none => "\"" ++ segment ++ "\""

/-- A quote is doubled, and the backslashes right before it are dropped. -/
def jsonPathQuote : List Char → List Char
  | [] => []
  | c :: r =>
    if c = '\\' ∧ (jsonPathQuote r).head? = some '\'' then jsonPathQuote r
    else if c = '\'' then '\'' :: '\'' :: jsonPathQuote r
    else c :: jsonPathQuote r

def wrapJSONPath (path : List String) : String :=
  let p := joinText "." (path.map fun s => wrapJSONPathSegment (String.ofList (jsonPathQuote s.toList)))
  "'$" ++ (if p.startsWith "[" then "" else ".") ++ p ++ "'"

/-- `tags[0][1]` is one attribute and two indexes. -/
def parseJSONPathArrayKeys (segment : String) : List String :=
  match arrayKeys segment.toList with
  | some (key, keys) => ((if key.isEmpty then [] else [key]) ++ keys).map String.ofList
  | none => [segment]

/-- The attributes of a Postgres JSON path; indexes stay bare. -/
def wrapJSONPathAttributes (path : List String) : List String :=
  (path.flatMap parseJSONPathArrayKeys).map fun key =>
    if isIndex key then key else "'" ++ replaceChar '\'' "''" key ++ "'"

def columnSegments (c : Column) : List String :=
  (c.qualifier.map (splitText '.')).getD [] ++ [c.name]

def jsonField (c : Column) : String := g.wrapSegments (columnSegments c)

/-- The `, path` argument of a JSON function. -/
def jsonPathArg (c : Column) : String :=
  if c.path.isEmpty then "" else ", " ++ wrapJSONPath c.path

/-- The Postgres selector; `last` is the arrow before the last attribute. -/
def postgresSelector (last : String) (c : Column) : String :=
  match wrapJSONPathAttributes c.path with
  | [] => g.jsonField c
  | attrs =>
    g.jsonField c ++ String.join (attrs.dropLast.map ("->" ++ ·)) ++ last
      ++ (attrs.getLast?.getD "")

def wrapJSONSelector (c : Column) : String :=
  match g.dialect with
  | .mysql => "json_unquote(json_extract(" ++ g.jsonField c ++ jsonPathArg c ++ "))"
  | .mariadb => "json_value(" ++ g.jsonField c ++ jsonPathArg c ++ ")"
  | .postgres => g.postgresSelector "->>" c
  | .sqlite => "json_extract(" ++ g.jsonField c ++ jsonPathArg c ++ ")"

def wrapColumn (c : Column) : String :=
  (if c.path.isEmpty then g.jsonField c else g.wrapJSONSelector c)
    ++ (c.called.map fun a => " as " ++ g.wrapValue a).getD ""

/-- `Wrap`. -/
def wrap : ColArg → List (Tok Val)
  | .name c => [.quoted (g.wrapColumn c)]
  | .expr sql args => [.raw sql args]
  | .sub prefixed q as =>
    (if prefixed then [.kw "exists "] else []) ++ paren q.toks
      ++ (as.map fun a => [Tok.kw " as ", .quoted (g.wrapValue a)]).getD []

def wrapTableText (t : TableName) : String :=
  g.wrapTableName t.name ++ (t.called.map fun a => " as " ++ g.wrapValue (g.tablePrefix ++ a)).getD ""

def columnize (cs : List ColArg) : List (Tok Val) := commaSep (cs.map g.wrap)

end Grammar

/-- `Parameter`: a placeholder, or an expression as it is. -/
def parameter : Val → List (Tok Val)
  | .expr sql args => [.raw sql args]
  | v => [.param v]

def parameterize (vs : List Val) : List (Tok Val) := commaSep (vs.map parameter)

/-- A `?` in an operator is doubled so that the driver does not take it for a placeholder. -/
def doubleMarks (operator : String) : String := replaceChar '?' "??" operator

/-! ### A quoted name is read back -/

/-- Reads what a quote opened: the name, with each doubled quote as one, and what follows it. -/
def unquote (q : Char) : List Char → Option (List Char × List Char)
  | [] => none
  | c :: r =>
    if c ≠ q then (unquote q r).map fun p => (c :: p.1, p.2)
    else match r with
      | [] => some ([], [])
      | d :: r' => if d = q then (unquote q r').map fun p => (q :: p.1, p.2) else some ([], r)

theorem unquote_doubled (q : Char) {rest : List Char} (hrest : rest.head? ≠ some q) (cs : List Char) :
    unquote q ((cs.flatMap fun x => if x = q then [q, q] else [x]) ++ q :: rest) = some (cs, rest) := by
  induction cs with
  | nil => cases rest <;> simp_all [unquote]
  | cons c cs ih =>
    by_cases hc : c = q
    · subst hc
      simp [unquote, ih]
    · rw [List.flatMap_cons, if_neg hc, List.singleton_append, List.cons_append, unquote.eq_def]
      simp [hc, ih]

/-- **A name stays inside its quotes**: whatever it is made of, in every dialect, it is read back as it
was, and the statement goes on with what was written behind it. -/
theorem unquote_wrapValue (g : Grammar) {value : String} (hvalue : value ≠ "*") (rest : List Char)
    (hrest : rest.head? ≠ some g.quoteChar) :
    ∃ body, (g.wrapValue value).toList ++ rest = g.quoteChar :: body ∧
      unquote g.quoteChar body = some (value.toList, rest) := by
  refine ⟨_, ?_, unquote_doubled g.quoteChar hrest value.toList⟩
  simp [Grammar.wrapValue, hvalue, replaceChar]

theorem unquote_wrapValue_injected : unquote '"' "a\"\"; drop table b --\" from c".toList =
    some ("a\"; drop table b --".toList, " from c".toList) := by
  have hvalue : "a\"; drop table b --" ≠ "*" := by decide
  obtain ⟨_, hbody, hread⟩ := unquote_wrapValue (newGrammar .postgres) hvalue " from c".toList (by decide)
  obtain ⟨-, rfl⟩ := List.cons.inj hbody
  exact hread

end Hesape.Query
