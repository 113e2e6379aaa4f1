import Hesape.Query.Calls
import Hesape.Query.Spelling

/-!
# From the Postgres grammar to the numbered statement

The Postgres grammar writes `?` for a value and doubles the `?` of an operator, and the
connection numbers the placeholders of the finished text with `Rebind`.  `CompileRequest` lists what
the grammar compiles, `CompileRequest.toks` is the text, and `numbered` of it is the statement the
server should get: the `k`-th placeholder is `$k`, a doubled `?` is one `?`, and names,
literals and comments are as they were.

`rebind_numbers_iff` says when `Rebind` gives that.  It does so for names, literals and reasons of
any text, but not for a doubled `?`: `Rebind` does not know the convention and gives each half a
number.
-/

namespace Hesape.Database

/-- The engine behind a connection. -/
inductive Dialect
  | sqlite | mysql | postgres
  deriving DecidableEq

/-- `Rebind`. -/
def Dialect.rebind (d : Dialect) (query : String) : String :=
  if d ≠ .postgres ∨ '?' ∉ query.toList then query
  else String.ofList (Sql.rebindFrom .text 0 query.toList)

/-- Looking for a `?` first saves the pass and changes nothing. -/
theorem toList_rebind (query : String) :
    (Dialect.postgres.rebind query).toList = Sql.rebindFrom .text 0 query.toList := by
  unfold Dialect.rebind
  split
  · next h =>
    have hmark : '?' ∉ query.toList := h.resolve_left fun hd => hd rfl
    rw [Sql.rebindFrom_of_bareMarks (Sql.bareMarks_of_notMem hmark)]
  · rw [String.toList_ofList]

end Hesape.Database

namespace Hesape.Query

open Sql (Tok Spelled Tail Lead Source Write KeyMap paren commaSep)
open List

/-! ### Inserts -/

namespace Grammar

variable (g : Grammar)

def columnNames (keys : List String) : List (Tok Val) :=
  g.columnize (keys.map fun k => .name (parseColumn k))

/-- `CompileInsert`: the columns are those of the first record, and a record without one of them
sends null. -/
def compileInsert (b : Builder Tree) (values : List (KeyMap Val)) : List (Tok Val) :=
  [.kw "insert into "] ++ (g.writeSource b).toks ++
    match values with
    | [] => [.kw " default values"]
    | first :: _ =>
      [.kw " ("] ++ g.columnNames first.keys ++ [.kw ") values "] ++ commaSep (values.map fun record =>
        paren (parameterize (first.keys.map fun k => (record.entries.lookup k).getD .null)))

/-- `CompileInsertUsing`, the select as text. -/
def compileInsertUsing (b : Builder Tree) (columns : List Col) (sql : String) (args : List Val) :
    List (Tok Val) :=
  [.kw "insert into "] ++ (g.writeSource b).toks ++
    (if columns = [] ∨ columns = [.name (.bare "*")] then [.kw " "]
      else [.kw " ("] ++ g.columnize (columns.map Col.arg) ++ [.kw ") "])
    ++ [.raw sql args]

/-- `CompileUpsert` of the Postgres grammar. -/
def compileUpsert (b : Builder Tree) (values : List (KeyMap Val)) (uniqueBy update : List String) :
    List (Tok Val) :=
  g.compileInsert b values ++ [.kw " on conflict ("] ++ g.columnNames uniqueBy
    ++ [.kw ") do update set "] ++ commaSep (update.map fun k =>
      [.quoted (g.wrapColumn (parseColumn k)), .kw " = ", .quoted (g.wrapValue "excluded"), .kw ".",
        .quoted (g.wrapColumn (parseColumn k))])

end Grammar

/-! ### Statements -/

/-- What the Postgres grammar is asked to compile. -/
inductive CompileRequest
  | select (b : Builder Tree)
  | «exists» (b : Builder Tree)
  | insert (b : Builder Tree) (values : List (KeyMap Val))
  | insertOrIgnore (b : Builder Tree) (values : List (KeyMap Val))
  | insertOrIgnoreReturning (b : Builder Tree) (values : List (KeyMap Val))
      (uniqueBy returning : List String)
  | insertGetID (b : Builder Tree) (values : KeyMap Val) (sequence : String)
  | insertUsing (b : Builder Tree) (columns : List Col) (sql : String) (args : List Val)
  | insertOrIgnoreUsing (b : Builder Tree) (columns : List Col) (sql : String) (args : List Val)
  | upsert (b : Builder Tree) (values : List (KeyMap Val)) (uniqueBy update : List String)
  | update (b : Builder Tree) (values : KeyMap (Val × Val))
  | updateFrom (b : Builder Tree) (values : KeyMap (Val × Val))
  | delete (b : Builder Tree)
  | truncate (b : Builder Tree) (cascade : Bool)

namespace CompileRequest

def builder : CompileRequest → Builder Tree
  | select b => b
  | «exists» b => b
  | insert b _ => b
  | insertOrIgnore b _ => b
  | insertOrIgnoreReturning b _ _ _ => b
  | insertGetID b _ _ => b
  | insertUsing b _ _ _ => b
  | insertOrIgnoreUsing b _ _ _ => b
  | upsert b _ _ _ => b
  | update b _ => b
  | updateFrom b _ => b
  | delete b => b
  | truncate b _ => b

/-- The statement as it is compiled, `json` encoding the values of an update. -/
def toks (g : Grammar) (json : Val → Option String) : CompileRequest → List (Tok Val)
  | select b => (g.compile (.node b)).query.toks
  | «exists» b =>
    [.kw "select exists("] ++ (g.compile (.node b)).query.toks
      ++ [.kw ") as ", .quoted (g.wrapValue "exists")]
  | insert b values => g.compileInsert b values
  | insertOrIgnore b values => g.compileInsert b values ++ [.kw " on conflict do nothing"]
  | insertOrIgnoreReturning b values uniqueBy returning =>
    g.compileInsert b values ++ [.kw " on conflict ("] ++ g.columnNames uniqueBy
      ++ [.kw ") do nothing returning "] ++ g.columnNames returning
  | insertGetID b values sequence =>
    g.compileInsert b [values] ++ [.kw " returning ",
      .quoted (g.wrapColumn (parseColumn (if sequence = "" then "id" else sequence)))]
  | insertUsing b columns sql args => g.compileInsertUsing b columns sql args
  | insertOrIgnoreUsing b columns sql args =>
    g.compileInsertUsing b columns sql args ++ [.kw " on conflict do nothing"]
  | upsert b values uniqueBy sets => g.compileUpsert b values uniqueBy sets
  | update b values => (g.compileUpdate json b values).toks
  | updateFrom b values => (g.compileUpdateFrom json b values).toks
  | delete b => (g.compileDelete b).toks
  | truncate b cascade =>
    [.kw "truncate "] ++ (g.writeSource b).toks ++ [.kw " restart identity"]
      ++ (if cascade then [.kw " cascade"] else [])

end CompileRequest

namespace Grammar

variable {g : Grammar}

/-- Taking clauses out of a builder leaves it made. -/
theorem made_of_subset {b b' : Builder Tree} (h : Made g (.node b)) (he : b'.embedded ⊆ b.embedded)
    (hc : b'.children ⊆ b.children) : Made g (.node b') := by
  cases h with
  | node origin made compiled below =>
    exact .node origin (fun q hq => made q (he hq)) (fun q hq => compiled q (he hq))
      fun t ht => below t (hc ht)

section Postgres

variable (hg : g.dialect = .postgres)
include hg

theorem spelled_columnNames (keys : List String) : Spelled (g.columnNames keys) := by
  refine spelled_columnize hg fun c hc => ?_
  obtain ⟨k, -, rfl⟩ := mem_map.mp hc
  exact nofun

variable {b : Builder Tree} (hb : Made g (.node b))
include hb

omit hg in
theorem made_embedded : ∀ q ∈ b.embedded, ∃ t, Made g t ∧ q = (g.compile t).query := by
  cases hb with
  | node origin made compiled => exact fun q hq => ⟨origin q, made q hq, compiled q hq⟩

omit hg in
theorem made_children : ∀ t ∈ b.children, Made g t := by
  cases hb with
  | node _ _ _ below => exact below

theorem fine_positions : (∀ c ∈ b.colArgs, c.Fine) ∧ ∀ t ∈ b.tableArgs, t.Fine := by
  refine fine_of_embedded fun q hq => ?_
  obtain ⟨t, ht, rfl⟩ := made_embedded hb q hq
  exact (fine_compile hg ht).query

theorem spelled_writeSource : Spelled (g.writeSource b).toks := by
  unfold writeSource
  cases ht : b.table with
  | none => exact .nil
  | some t => exact spelled_compileSource hg ((fine_positions hg hb).2 t (by simp [Builder.tableArgs, ht]))

theorem spelled_compileInsert (values : List (KeyMap Val)) : Spelled (g.compileInsert b values) := by
  unfold compileInsert
  refine (Spelled.cons rfl (spelled_writeSource hg hb)).tail ?_
  cases values with
  | nil => exact .word rfl
  | cons first r =>
    have hrows : Spelled (commaSep ((first :: r).map fun record =>
        paren (parameterize (first.keys.map fun k => (record.entries.lookup k).getD .null)))) := by
      refine Sql.spelled_commaSep fun ts hts => ?_
      obtain ⟨record, -, rfl⟩ := mem_map.mp hts
      exact (Sql.spelled_paren (spelled_parameterize _)).1
    dsimp only
    rw [append_assoc, append_assoc]
    exact .cons rfl ((spelled_columnNames hg _).between rfl hrows)

theorem spelled_compileInsertUsing (columns : List Col) (sql : String) (args : List Val) :
    Spelled (g.compileInsertUsing b columns sql args) := by
  unfold compileInsertUsing
  rw [append_assoc]
  refine (Spelled.cons rfl (spelled_writeSource hg hb)).tail ?_
  split
  · exact .cons rfl (.single rfl)
  · rw [append_assoc, append_assoc]
    refine .cons rfl ((spelled_columnize hg fun c hc => ?_).between rfl (.single rfl))
    obtain ⟨d, -, rfl⟩ := mem_map.mp hc
    intro q hq
    cases d <;> cases hq

theorem spelled_compileUpsert (values : List (KeyMap Val)) (uniqueBy update : List String) :
    Spelled (g.compileUpsert b values uniqueBy update) := by
  have hsets : Spelled (commaSep (update.map fun k =>
      [.quoted (g.wrapColumn (parseColumn k)), .kw " = ", .quoted (g.wrapValue "excluded"), .kw ".",
        .quoted (g.wrapColumn (parseColumn k))]) : List (Tok Val)) := by
    refine Sql.spelled_commaSep fun ts hts => ?_
    obtain ⟨k, -, rfl⟩ := mem_map.mp hts
    exact .tok (name_wrapColumn hg _).closed (.cons rfl (.tok (name_wrapValue hg _).closed
      (.cons rfl (.single (name_wrapColumn hg _).closed))))
  unfold compileUpsert
  rw [append_assoc, append_assoc, append_assoc]
  exact (spelled_compileInsert hg hb values).between rfl
    ((spelled_columnNames hg uniqueBy).between rfl hsets)

omit hg hb in
/-- The array of a path is one literal. -/
theorem name_postgresPath (path : List String) : Name (postgresPath path) := by
  unfold postgresPath
  dsimp only
  generalize joinText "," _ = keys
  refine .quote .single ('\x7b' :: (keys.toList ++ ['\x7d'])) ?_
  have hdouble : doubledQuotes .single ('\x7b' :: (keys.toList ++ ['\x7d']))
      = '\x7b' :: (doubledQuotes .single keys.toList ++ ['\x7d']) := by
    simp [doubledQuotes, Sql.Quote.char]
  rw [hdouble, String.toList_append, String.toList_append, toList_replaceChar]
  show ['\'', '\x7b'] ++ doubledQuotes .single keys.toList ++ ['\x7d', '\''] = _
  simp [Sql.Quote.char]

omit hb in
theorem spelled_setToks (json : Val → Option String) (values : KeyMap (Val × Val)) :
    Tail (g.setToks json values) := by
  have hparam : ∀ said bound : Val, Spelled (setParameter said bound) := by
    intro said bound
    cases said <;> exact .single rfl
  refine .cons rfl ?_
  simp only [compileUpdateColumns, hg]
  refine Sql.spelled_commaSep fun ts hts => ?_
  obtain ⟨e, -, rfl⟩ := mem_map.mp hts
  unfold postgresSet
  dsimp only
  split
  · exact .tok (name_jsonField hg _).closed (.cons rfl
      (.tok ((name_jsonField hg _).sep (name_postgresPath _) (by decide)).closed (.cons rfl
        ((hparam _ _).word rfl))))
  · exact .tok (name_wrapColumn hg _).closed (.cons rfl (hparam _ _))

theorem spelled_where : Spelled (Sql.joinClauses (Sql.clauseParts (g.whereClauses g.compile b.wheres))) :=
  Sql.spelled_clauses (spelled_whereClauses hg (fine_positions hg hb).1
    fun t ht => fine_compile hg (made_children hb t ht))

/-- The select of row identifiers is one of the same tables and conditions. -/
theorem spelled_rowIdSelect : Spelled (g.rowIdSelect b).toks := by
  refine (fine_compile hg (made_of_subset hb ?_ ?_)).query
  · intro q hq
    simp only [Builder.embedded, mem_append, mem_filterMap] at hq ⊢
    refine hq.imp ?_ id
    rintro ⟨c, hc, hcq⟩
    refine ⟨c, ?_, hcq⟩
    -- The new select list holds a name only.
    have hname : c ∉ ((b.select [.name (.of (ownLabel b) g.rowId)]).columns.getD []) := by
      intro h
      rw [mem_singleton.mp h] at hcq
      cases hcq
    simp only [Builder.colArgs, mem_append] at hc ⊢
    simp only [hname, false_or] at hc
    rcases hc with ((((h | h) | h) | h) | h) | h
    · exact .inl (.inl (.inl (.inl (.inl (.inr h)))))
    · exact .inl (.inl (.inl (.inl (.inr h))))
    · exact .inl (.inl (.inl (.inr h)))
    · exact .inl (.inl (.inr h))
    · exact .inl (.inr h)
    · exact .inr h
  · intro t ht
    rw [Builder.mem_children] at ht ⊢
    refine ht.imp_right fun h => h.imp_right fun h => h.imp_right fun h => h.imp_right ?_
    rintro ⟨p, hp, rfl⟩
    exact ⟨p, (mem_filter.mp hp).1, rfl⟩

theorem spelled_rowIds {pre mid : List (Tok Val)} (hpre : Lead pre) (hmid : Tail mid) :
    Spelled (Write.rowIds g.rowId pre (g.writeSource b) mid (g.rowIdSelect b)).toks := by
  rw [Write.toks]
  exact ((hpre.append (spelled_writeSource hg hb)).tail hmid).tail
    (Sql.spelled_paren (spelled_rowIdSelect hg hb))

omit hb in
theorem tail_rowId : Tail ([.kw " where ", .quoted (g.wrapValue g.rowId), .kw " in "] : List (Tok Val)) :=
  .cons rfl (.tok (name_wrapValue hg _).closed (.word rfl))

/-- A write without joins. -/
theorem spelled_joined {pre mid : List (Tok Val)} {targets : List String} (hpre : Lead pre)
    (hmid : Tail mid) : Spelled (Write.joined targets pre (g.writeSource b) [] mid
      (g.whereClauses g.compile b.wheres) (g.orderAndLimit b)).toks := by
  have htail : g.orderAndLimit b = [] := by simp [orderAndLimit, isMySQL, hg]
  rw [Write.toks, htail]
  exact ((((hpre.append (spelled_writeSource hg hb)).tail .nil).tail hmid).tail
    (Sql.tail_after rfl (spelled_where hg hb))).tail .nil

omit hb in
theorem isEmpty_joins (hrows : ¬ g.usesRowIds b) : b.joins.isEmpty := by
  simp only [usesRowIds, isMySQL, hg] at hrows
  simp at hrows
  simp [hrows.1]

theorem spelled_compileUpdate (json : Val → Option String) (values : KeyMap (Val × Val)) :
    Spelled (g.compileUpdate json b values).toks := by
  have hsets := spelled_setToks hg json values
  unfold compileUpdate
  dsimp only
  by_cases hrows : g.usesRowIds b
  · rw [if_pos hrows]
    exact spelled_rowIds hg hb (.cons rfl .nil) (hsets.append (tail_rowId hg))
  · rw [if_neg hrows, if_pos (isEmpty_joins hg hrows)]
    exact spelled_joined hg hb (.cons rfl .nil) hsets

theorem spelled_compileDelete : Spelled (g.compileDelete b).toks := by
  unfold compileDelete
  by_cases hrows : g.usesRowIds b
  · rw [if_pos hrows]
    exact spelled_rowIds hg hb (.cons rfl .nil) (tail_rowId hg)
  · rw [if_neg hrows, if_pos (isEmpty_joins hg hrows)]
    exact spelled_joined hg hb (.cons rfl .nil) .nil

theorem spelled_compileUpdateFrom (json : Val → Option String) (values : KeyMap (Val × Val)) :
    Spelled (g.compileUpdateFrom json b values).toks := by
  have hfine := fine_positions hg hb
  have hsub : ∀ t ∈ b.children, (g.compile t).Fine := fun t ht => fine_compile hg (made_children hb t ht)
  have hothers : Spelled (commaSep ((b.joins.map fun j => g.compileSource j.table).map Source.toks)) := by
    refine Sql.spelled_commaSep fun ts hts => ?_
    simp only [map_map, mem_map, Function.comp_apply] at hts
    obtain ⟨j, hj, rfl⟩ := hts
    refine spelled_compileSource hg (hfine.2 _ ?_)
    simp only [Builder.tableArgs, mem_append, mem_map]
    exact .inr ⟨j, hj, rfl⟩
  have hwheres : Spelled (Sql.joinClauses (Sql.clauseParts
      (g.whereClauses g.compile b.wheres ++ g.compileUpdateJoinWheres b))) := by
    refine Sql.spelled_clauses fun p hp => ?_
    rcases mem_append.mp hp with hp | hp
    · exact spelled_whereClauses hg hfine.1 hsub p hp
    · obtain ⟨j, hj, hp⟩ := mem_flatMap.mp hp
      exact (hsub _ (Builder.join_mem_children hj)).wheres p hp
  rw [compileUpdateFrom, Write.toks]
  exact (((Lead.append (.cons rfl .nil) (spelled_writeSource hg hb)).tail
    (spelled_setToks hg json values)).tail (Sql.tail_after rfl hothers)).tail
    (Sql.tail_after rfl hwheres)

end Postgres

end Grammar

/-! ### Rebinding -/

section Rebinding

open Grammar

variable {g : Grammar} (hg : g.dialect = .postgres) (json : Val → Option String)
include hg

/-- Every statement of the grammar's is spelled out. -/
theorem CompileRequest.spelled {s : CompileRequest} (hs : Made g (.node s.builder)) :
    Spelled (s.toks g json) := by
  cases s with
  | select => exact (fine_compile hg hs).query
  | «exists» b =>
    exact (Spelled.cons rfl (fine_compile hg hs).query).tail
      (.cons rfl (.single (name_wrapValue hg _).closed))
  | insert b values => exact spelled_compileInsert hg hs values
  | insertOrIgnore b values => exact (spelled_compileInsert hg hs values).word rfl
  | insertOrIgnoreReturning b values =>
    simp only [toks, append_assoc]
    exact (spelled_compileInsert hg hs values).between rfl
      ((spelled_columnNames hg _).between rfl (spelled_columnNames hg _))
  | insertGetID b values =>
    exact (spelled_compileInsert hg hs [values]).between rfl
      (.single (name_wrapColumn hg _).closed)
  | insertUsing b columns sql args => exact spelled_compileInsertUsing hg hs columns sql args
  | insertOrIgnoreUsing b columns sql args =>
    exact (spelled_compileInsertUsing hg hs columns sql args).word rfl
  | upsert b values uniqueBy sets => exact spelled_compileUpsert hg hs values uniqueBy sets
  | update b values => exact spelled_compileUpdate hg hs json values
  | updateFrom b values => exact spelled_compileUpdateFrom hg hs json values
  | delete => exact spelled_compileDelete hg hs
  | truncate b cascade =>
    refine ((Spelled.cons rfl (spelled_writeSource hg hs)).word rfl).tail ?_
    cases cascade with
    | false => exact .nil
    | true => exact .word rfl

/-- **Rebinding numbers a statement as it should exactly when nothing in it is doubled and no
operator holds a `?`.**  The caller's own words are taken to be closed: an operator is plain, and
a fragment ends outside quotes and comments. -/
theorem rebind_numbers_iff {s : CompileRequest} (hs : Made g (.node s.builder))
    (hc : ∀ t ∈ s.toks g json, t.closed = true) :
    (Database.Dialect.postgres.rebind (Sql.render (s.toks g json))).toList
        = Sql.numbered 0 (s.toks g json)
      ↔ ∀ t ∈ s.toks g json, t.calm = true := by
  rw [Database.toList_rebind, Sql.toList_render]
  exact Sql.rebindFrom_eq_numbered_iff (CompileRequest.spelled hg json hs) hc 0

end Rebinding

/-- A builder that refers to no other. -/
theorem made_alone {g : Grammar} {b : Builder Tree} (he : b.embedded = []) (hc : b.children = []) :
    Made g (.node b) :=
  .node (fun _ => .node {}) (fun q hq => by rw [he] at hq; cases hq)
    (fun q hq => by rw [he] at hq; cases hq) fun t ht => by rw [hc] at ht; cases ht

/-- A name with both quotes and a `?` in it, and a clause refused with a reason that holds a `?` and
the end of a comment. -/
def oddNames : Builder Tree where
  table := some (.table ⟨"po?sts", none⟩)
  wheres := [
    { typ := "Basic", column := .name { name := "na\"me?", path := ["it's"] }, operator := "=", value := .int 1 },
    { typ := "why?*/", boolean := .and },
    { typ := "In", column := .name (.bare "id"), values := [.int 2, .int 3] }]

theorem rebind_numbers_oddNames :
    (Database.Dialect.postgres.rebind (Sql.render
        ((CompileRequest.select oddNames).toks (newGrammar .postgres) fun _ => none))).toList
      = Sql.numbered 0 ((CompileRequest.select oddNames).toks (newGrammar .postgres) fun _ => none) :=
  (rebind_numbers_iff (g := newGrammar .postgres) rfl (fun _ => none) (s := .select oddNames)
    (made_alone rfl rfl) (by decide +kernel)).mpr (by decide +kernel)

/-- The key test `tags ? 'k'`. -/
def keyTest : Builder Tree where
  table := some (.table ⟨"posts", none⟩)
  wheres := [{ typ := "Basic", column := .name (.bare "tags"), operator := "?", value := .str "k" }]

/-- **The operator becomes two placeholders**, and the value's own is the third. -/
theorem doubled_mark_takes_numbers :
    Sql.render ((CompileRequest.select keyTest).toks (newGrammar .postgres) fun _ => none)
        = "select * from \"posts\" where \"tags\" ?? ?"
      ∧ Database.Dialect.postgres.rebind
          (Sql.render ((CompileRequest.select keyTest).toks (newGrammar .postgres) fun _ => none))
        = "select * from \"posts\" where \"tags\" $1$2 $3"
      ∧ String.ofList (Sql.numbered 0
          ((CompileRequest.select keyTest).toks (newGrammar .postgres) fun _ => none))
        = "select * from \"posts\" where \"tags\" ? $1" := by
  decide +kernel

end Hesape.Query
