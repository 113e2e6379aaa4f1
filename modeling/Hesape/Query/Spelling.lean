import Hesape.Query.CompileWrite
import Hesape.Sql.Spelling

/-!
# What the Postgres grammar writes, as text

Every name, literal and comment the Postgres grammar writes is closed where it ends, whatever
the caller put into it: a quote inside a quoted name or a literal is doubled, and a reason that
would close its own comment is broken up.  So every statement it compiles is `Spelled`, up to the
operators and the fragments that are the caller's own words (`spelled_compile`).

A subquery that was compiled into a column or a table position earlier is part of the statement
too.  `Made` says where such a piece came from: the same grammar compiled it.
-/

namespace Hesape.Query

open Sql (Tok Quote Mode Spelled Tail Lead Cond finalMode bareMarks inert clash special paren)
open List

/-! ### Quoted text -/

/-- A text with every quote doubled. -/
def doubledQuotes (q : Quote) (v : List Char) : List Char :=
  v.flatMap fun x => if x = q.char then [q.char, q.char] else [x]

/-- Inside quotes nothing but the quote at the end closes them. -/
theorem quoted_closes (q : Quote) : ∀ v : List Char,
    finalMode (.quoted q) (doubledQuotes q v ++ [q.char]) = .text
      ∧ bareMarks (.quoted q) (doubledQuotes q v ++ [q.char]) = 0 := by
  intro v
  induction v with
  | nil => cases q <;> decide
  | cons x v ih =>
    rw [doubledQuotes, flatMap_cons, ← doubledQuotes]
    by_cases hx : x = q.char
    · rw [if_pos hx]
      have h₁ : Mode.next (.quoted q) q.char (some q.char) = .doubled q := by simp [Mode.next]
      have h₂ : ∀ a, Mode.next (.doubled q) q.char a = .quoted q := fun _ => rfl
      simpa [finalMode, bareMarks, h₁, h₂] using ih
    · rw [if_neg hx]
      have h₁ : ∀ a, Mode.next (.quoted q) x a = .quoted q := fun a => by simp [Mode.next, hx]
      simpa [finalMode, bareMarks, h₁] using ih

theorem inert_quoted (q : Quote) (v : List Char) :
    inert (q.char :: (doubledQuotes q v ++ [q.char])) := by
  have hopen : ∀ a, Mode.next .text q.char a = .quoted q := by
    intro a
    cases q <;> simp [Mode.next, Quote.char]
  have hmark : q.char ≠ '?' := by cases q <;> decide
  rw [Sql.inert_iff, finalMode, bareMarks, hopen, if_neg fun h => hmark h.2, Nat.zero_add]
  exact quoted_closes q v

/-- Inside a comment nothing that is broken up closes it. -/
theorem comment_closes : ∀ s : List Char,
    finalMode .block (breakComment s ++ [' ', '*', '/']) = .text
      ∧ bareMarks .block (breakComment s ++ [' ', '*', '/']) = 0 := by
  intro s
  fun_induction breakComment s with
  | case1 => decide
  | case2 r ih =>
    have h₁ : Mode.next .block '*' (some ' ') = .block := by decide
    have h₂ : ∀ a, Mode.next .block ' ' a = .block := fun a => by simp [Mode.next]
    have h₃ : ∀ a, Mode.next .block '/' a = .block := fun a => by simp [Mode.next]
    simpa [finalMode, bareMarks, h₁, h₂, h₃] using ih
  | case3 c r hne ih =>
    -- What stands behind the character is what stood behind it before.
    have hahead : c = '*' → (breakComment r ++ [' ', '*', '/']).head? ≠ some '/' := by
      intro hc h
      cases r with
      | nil => simp [breakComment] at h
      | cons d r =>
        have hd : d = '/' := by
          rw [breakComment.eq_def] at h
          split at h
          · next he => cases he
          · next he => cases he; simp at h
          · next he => cases he; simpa using h
        exact hne r hc (by rw [hd])
    have h₁ : Mode.next .block c (breakComment r ++ [' ', '*', '/']).head? = .block := by
      simp only [Mode.next]
      rw [if_neg fun h => hahead h.1 h.2]
    rw [cons_append, finalMode, bareMarks, h₁, if_neg (by simp), Nat.zero_add]
    exact ih

theorem inert_refusal (err : String) : inert (refusal err).toList := by
  have hlist : (refusal err).toList
      = '/' :: '*' :: ' ' :: (breakComment err.toList ++ [' ', '*', '/']) := by
    simp [refusal]
  have h₁ : Mode.next .text '/' (some '*') = .block := by decide
  have h₂ : Mode.next .block '*' (some ' ') = .block := by decide
  have h₃ : ∀ a, Mode.next .block ' ' a = .block := fun a => by simp [Mode.next]
  rw [Sql.inert_iff, hlist]
  simpa [finalMode, bareMarks, h₁, h₂, h₃] using comment_closes err.toList

/-! ### Names -/

/-- Closed text that a separator may follow. -/
structure Name (s : String) : Prop where
  closed : inert s.toList = true
  last : s.toList.getLast? ≠ some '-'

/-- What stands between the parts of a name. -/
def separators : List String := [".", "->", "->>", " as ", "::jsonb, "]

/-- A separator is closed, and no mark joins it at either end. -/
theorem separators_closed {sep : String} (hsep : sep ∈ separators) : inert sep.toList
    ∧ (∀ d ∈ sep.toList.head?, d = '-' ∨ special d = false)
    ∧ (∀ c ∈ sep.toList.getLast?, special c = false ∧ c ≠ '-') ∧ sep.toList ≠ [] := by
  have h : inert sep.toList
      ∧ (sep.toList.head?.all fun d => decide (d = '-' ∨ special d = false))
      ∧ (sep.toList.getLast?.all fun c => decide (special c = false ∧ c ≠ '-'))
      ∧ sep.toList ≠ [] := by
    revert sep
    decide
  obtain ⟨hinert, hfirst, hlast, hne⟩ := h
  refine ⟨hinert, fun d hd => ?_, fun c hc => ?_, hne⟩
  · rw [Option.mem_def.mp hd, Option.all_some] at hfirst
    exact of_decide_eq_true hfirst
  · rw [Option.mem_def.mp hc, Option.all_some] at hlast
    exact of_decide_eq_true hlast

theorem Name.sep {s t sep : String} (hs : Name s) (ht : Name t) (hsep : sep ∈ separators) :
    Name (s ++ sep ++ t) := by
  obtain ⟨hinert, hfirst, hlast, hne⟩ := separators_closed hsep
  have hseam : Sql.Seam s.toList sep.toList := by
    intro c hc d hd
    rcases hfirst d hd with rfl | hd
    · have hc' : c ≠ '-' := by rintro rfl; exact hs.last hc
      simp [clash, hc']
    · exact Sql.clash_of_not_special (.inr hd)
  have hlast' : (s.toList ++ sep.toList).getLast? = sep.toList.getLast? := by
    rw [getLast?_append_of_ne_nil _ hne]
  have hseam' : Sql.Seam (s.toList ++ sep.toList) t.toList := by
    intro c hc d _
    rw [hlast'] at hc
    exact Sql.clash_of_not_special (.inl (hlast c hc).1)
  refine ⟨?_, ?_⟩
  · rw [String.toList_append, String.toList_append]
    exact Sql.inert_append (Sql.inert_append hs.closed hinert hseam) ht.closed hseam'
  · rw [String.toList_append, String.toList_append]
    intro h
    by_cases hnil : t.toList = []
    · rw [hnil, append_nil, hlast'] at h
      exact (hlast '-' h).2 rfl
    · rw [getLast?_append_of_ne_nil _ hnil] at h
      exact ht.last h

theorem Name.empty : Name "" := ⟨by decide, by decide⟩

theorem Name.quote (q : Quote) (v : List Char) {s : String}
    (h : s.toList = q.char :: (doubledQuotes q v ++ [q.char])) : Name s := by
  refine ⟨by rw [h]; exact inert_quoted q v, ?_⟩
  rw [h, ← cons_append, getLast?_concat]
  cases q <;> decide

theorem Name.join : ∀ {ss : List String}, (∀ s ∈ ss, Name s) → Name (joinText "." ss) := by
  intro ss
  induction ss with
  | nil => intro _; exact .empty
  | cons s r ih =>
    intro h
    cases r with
    | nil => exact h s (by simp)
    | cons => exact (h s (by simp)).sep (ih fun x hx => h x (by simp [hx])) (by decide)

theorem toList_replaceChar (c : Char) (by_ s : String) :
    (replaceChar c by_ s).toList = s.toList.flatMap fun x => if x = c then by_.toList else [x] := by
  rw [replaceChar, String.toList_ofList]

/-- A literal, its quotes doubled. -/
theorem Name.literal (v : String) : Name ("'" ++ replaceChar '\'' "''" v ++ "'") := by
  refine .quote .single v.toList ?_
  rw [String.toList_append, String.toList_append, toList_replaceChar]
  rfl

/-- Digits are plain text. -/
theorem Name.digits {ds : List Char} (h : ∀ c ∈ ds, c.isDigit) :
    Sql.plain ds ∧ '?' ∉ ds ∧ ds.getLast? ≠ some '-' ∧ ds.head? ≠ some '-' := by
  have hdash : '-' ∉ ds := fun hd => absurd (h '-' hd) (by decide)
  exact ⟨Sql.plain_of_not_special fun c hc => Sql.not_special_of_isDigit (h c hc),
    fun hq => absurd (h '?' hq) (by decide), fun hl => hdash (mem_of_getLast? hl),
    fun hh => hdash (mem_of_mem_head? hh)⟩

/-- What `strconv.Atoi` reads is plain text and ends in a digit. -/
theorem Name.index {s : String} (h : Grammar.isIndex s) : Name s := by
  obtain ⟨ds, hs, hne, hds⟩ : ∃ ds, (s.toList = ds ∨ ∃ c ∈ ['-', '+'], s.toList = c :: ds)
      ∧ ds ≠ [] ∧ ∀ c ∈ ds, c.isDigit := Text.digits_of_parseInt (Option.isSome_iff_exists.mp h)
  obtain ⟨hplain, hmark, hlast, hhead⟩ := Name.digits hds
  obtain ⟨hp, hq, hl⟩ : Sql.plain s.toList ∧ '?' ∉ s.toList ∧ s.toList.getLast? ≠ some '-' := by
    rcases hs with hs | ⟨c, hc, hs⟩
    · rw [hs]; exact ⟨hplain, hmark, hlast⟩
    · have hl : (c :: ds).getLast? ≠ some '-' := by
        rw [getLast?_cons_of_ne_nil hne]; exact hlast
      simp only [mem_cons, not_mem_nil, or_false] at hc
      rw [hs, Sql.plain, hplain]
      rcases hc with rfl | rfl
      · exact ⟨by simp [Mode.next, hhead], by simp [hmark], hl⟩
      · exact ⟨by simp [Mode.next], by simp [hmark], hl⟩
  exact ⟨Sql.inert_iff.mpr ⟨Sql.finalMode_of_plain hp, Sql.bareMarks_of_notMem hq⟩, hl⟩

namespace Grammar

variable {g : Grammar}

section Names

variable (hg : g.dialect = .postgres)
include hg

theorem name_wrapValue (v : String) : Name (g.wrapValue v) := by
  have hq : g.quoteChar = '"' := by simp [quoteChar, isMySQL, hg]
  unfold wrapValue
  split
  · next h => rw [h]; exact ⟨by decide, by decide⟩
  · refine .quote .double v.toList ?_
    simp only [hq, String.toList_append, toList_replaceChar]
    rfl

theorem name_wrapTableName (name : String) : Name (g.wrapTableName name) := by
  refine .join fun s hs => ?_
  obtain ⟨v, -, rfl⟩ := mem_map.mp hs
  exact name_wrapValue hg v

theorem name_wrapSegments (ss : List String) : Name (g.wrapSegments ss) := by
  match ss with
  | [] => exact .empty
  | [s] => exact name_wrapValue hg s
  | s :: t :: r =>
    refine .join fun x hx => ?_
    rcases mem_cons.mp hx with rfl | hx
    · exact name_wrapTableName hg s
    · obtain ⟨v, -, rfl⟩ := mem_map.mp hx
      exact name_wrapValue hg v

theorem name_jsonField (c : Column) : Name (g.jsonField c) := name_wrapSegments hg _

omit hg in
theorem name_attribute {path : List String} {a : String} (ha : a ∈ wrapJSONPathAttributes path) :
    Name a := by
  obtain ⟨key, -, rfl⟩ := mem_map.mp ha
  split
  · next h => exact .index h
  · exact .literal key

theorem name_postgresSelector {last : String} (hlast : last ∈ separators) (c : Column) :
    Name (g.postgresSelector last c) := by
  have hattr : ∀ a ∈ wrapJSONPathAttributes c.path, Name a := fun a ha => name_attribute ha
  have hpath : ∀ (as : List String), (∀ a ∈ as, Name a) → ∀ s, Name s →
      Name (s ++ String.join (as.map ("->" ++ ·))) := by
    intro as
    induction as with
    | nil => intro _ s hs; simpa using hs
    | cons a _ ih =>
      intro has s hs
      have := ih (fun x hx => has x (by simp [hx])) (s ++ "->" ++ a)
        (hs.sep (has a (by simp)) (by decide))
      simpa [String.append_assoc] using this
  unfold postgresSelector
  split
  · exact name_jsonField hg c
  · refine Name.sep (hpath _ (fun a ha => hattr a (dropLast_subset _ ha)) _ (name_jsonField hg c)) ?_
      hlast
    cases h : (wrapJSONPathAttributes c.path).getLast? with
    | none => exact .empty
    | some a => exact hattr a (mem_of_getLast? h)

theorem name_wrapColumn (c : Column) : Name (g.wrapColumn c) := by
  have hbare : Name (if c.path.isEmpty then g.jsonField c else g.wrapJSONSelector c) := by
    split
    · exact name_jsonField hg c
    · simp only [wrapJSONSelector, hg]
      exact name_postgresSelector hg (by decide) c
  unfold wrapColumn
  cases c.called with
  | none => simpa using hbare
  | some a =>
    have := hbare.sep (name_wrapValue hg a) (by decide : " as " ∈ separators)
    simpa [String.append_assoc] using this

theorem name_wrapTableText (t : TableName) : Name (g.wrapTableText t) := by
  unfold wrapTableText
  cases t.called with
  | none => simpa using name_wrapTableName hg t.name
  | some a =>
    have := (name_wrapTableName hg t.name).sep (name_wrapValue hg (g.tablePrefix ++ a))
      (by decide : " as " ∈ separators)
    simpa [String.append_assoc] using this

end Names

/-! ### Where the subqueries of a builder come from -/

end Grammar

/-- The subquery of a column position. -/
def ColArg.sub? : ColArg → Option (Sql.Query Val)
  | .sub _ q _ => some q
  | _ => none

def TableArg.sub? : TableArg → Option (Sql.Query Val)
  | .sub q _ => some q
  | _ => none

def Where.colArgs {Q : Type} (w : Where Q) : List ColArg :=
  w.column :: w.first :: w.second :: (w.columns ++ w.valueColumns)

def Distinct.colArgs : Distinct → List ColArg
  | .plain => []
  | .on cs => cs

/-- The column positions of a builder. -/
def Builder.colArgs {Q : Type} (b : Builder Q) : List ColArg :=
  b.columns.getD [] ++ b.wheres.flatMap Where.colArgs ++ b.groups ++ b.havings.map (·.column)
    ++ b.orders.map (·.column) ++ b.unionOrders.map (·.column)
    ++ ((b.aggregate.map (·.columns)).getD [] ++ (b.distinct.map Distinct.colArgs).getD [])

/-- The table positions of a builder. -/
def Builder.tableArgs {Q : Type} (b : Builder Q) : List TableArg :=
  b.table.toList ++ b.joins.map (·.table)

/-- The subqueries compiled into a builder. -/
def Builder.embedded {Q : Type} (b : Builder Q) : List (Sql.Query Val) :=
  b.colArgs.filterMap ColArg.sub? ++ b.tableArgs.filterMap TableArg.sub?

/-- Every subquery compiled into a builder of the tree is what the grammar makes of a builder
like it. -/
inductive Made (g : Grammar) : Tree → Prop
  | node {b : Builder Tree} (origin : Sql.Query Val → Tree)
    (made : ∀ q ∈ b.embedded, Made g (origin q))
    (compiled : ∀ q ∈ b.embedded, q = (g.compile (origin q)).query)
    (below : ∀ t ∈ b.children, Made g t) : Made g (.node b)

/-- The subquery in a column position is spelled out. -/
def ColArg.Fine (c : ColArg) : Prop := ∀ q ∈ c.sub?, Spelled q.toks

def TableArg.Fine (t : TableArg) : Prop := ∀ q ∈ t.sub?, Spelled q.toks

/-- Everything the grammar makes of a builder is spelled out. -/
structure Compiled.Fine (c : Compiled) : Prop where
  query : Spelled c.query.toks
  wheres : ∀ p ∈ c.wheres, Spelled p.2.toks
  havings : ∀ p ∈ c.havings, Spelled p.2
  joins : ∀ j ∈ c.joins, Spelled j.toks

namespace Grammar

variable {g : Grammar}

/-! ### Pieces -/

theorem spelled_infixToks {left right : List (Tok Val)} (hl : Spelled left) (hr : Spelled right)
    (operator : String) : Spelled (infixToks left operator right) := by
  rw [infixToks, append_assoc]
  exact hl.between rfl (.tok rfl (.cons rfl hr))

theorem spelled_parameter (v : Val) : Spelled (parameter v) := by
  cases v <;> exact .single rfl

theorem spelled_parameterize (vs : List Val) : Spelled (parameterize vs) := by
  refine Sql.spelled_commaSep fun ts hts => ?_
  obtain ⟨v, -, rfl⟩ := mem_map.mp hts
  exact spelled_parameter v

theorem spelled_betweenToks (not : Bool) {subject first last : List (Tok Val)} (hs : Spelled subject)
    (hf : Spelled first) (hl : Spelled last) : Spelled (betweenToks not subject first last) := by
  rw [betweenToks, append_assoc, append_assoc, append_assoc]
  cases not with
  | false | true => exact hs.between rfl (hf.between rfl hl)

theorem spelled_unsupportedClause (err : String) : Spelled (unsupportedClause err) :=
  .cons rfl (.single (inert_refusal err))

theorem spelled_negated (not : Bool) {ts : List (Tok Val)} (h : Spelled ts) :
    Spelled (negated not ts) := by
  unfold negated
  split
  · exact .cons rfl h
  · exact h

section Postgres

variable (hg : g.dialect = .postgres)
include hg

theorem spelled_quotedColumn (c : Column) : Spelled [(.quoted (g.wrapColumn c) : Tok Val)] :=
  .single (name_wrapColumn hg c).closed

theorem tail_alias (a : Option String) :
    Tail ((a.map fun a => [Tok.kw " as ", .quoted (g.wrapValue a)]).getD [] : List (Tok Val)) := by
  cases a with
  | none => exact .nil
  | some a => exact .cons rfl (.single (name_wrapValue hg a).closed)

theorem spelled_wrap {c : ColArg} (h : c.Fine) : Spelled (g.wrap c) := by
  cases c with
  | name c => exact spelled_quotedColumn hg c
  | expr => exact .single rfl
  | sub prefixed q as =>
    have hq : Tail (paren q.toks) := Sql.spelled_paren (h q rfl)
    rw [wrap]
    refine Spelled.tail ?_ (tail_alias hg as)
    cases prefixed with
    | false => exact hq.1
    | true => exact .cons rfl hq.1

variable {cs : List ColArg}

theorem spelled_columnize (h : ∀ c ∈ cs, c.Fine) : Spelled (g.columnize cs) := by
  refine Sql.spelled_commaSep fun ts hts => ?_
  obtain ⟨c, hc, rfl⟩ := mem_map.mp hts
  exact spelled_wrap hg (h c hc)

theorem spelled_basicToks {left : List (Tok Val)} (h : Spelled left) (operator : String) (value : Val) :
    Spelled (g.basicToks left operator value) := by
  unfold basicToks
  split
  · exact spelled_infixToks (h.word rfl) (spelled_parameter value) operator
  · split
    · next hs => simp [hg] at hs
    · exact spelled_infixToks h (spelled_parameter value) _

/-- A comparison whose left side stands in front of it already. -/
theorem tail_basicToks (operator : String) (value : Val) : Tail (g.basicToks [] operator value) := by
  have hv := spelled_parameter value
  unfold basicToks
  split
  · exact .cons rfl (.cons rfl (.tok rfl (.cons rfl hv)))
  · split
    · next hs => simp [hg] at hs
    · exact .cons rfl (.tok rfl (.cons rfl hv))

variable {column : ColArg}

theorem spelled_dateToks (kind : WhereKind) (h : column.Fine) (operator : String)
    (value : Val) : Spelled (g.dateToks kind column operator value) := by
  have hcol := spelled_wrap hg h
  have hp := spelled_parameter value
  have hparen : ∀ json : Bool, Spelled (if json then paren (g.wrap column) else g.wrap column) := by
    intro json
    cases json with
    | false => exact hcol
    | true => exact (Sql.spelled_paren hcol).1
  delta dateToks
  simp only [hg]
  cases kind with
  | date | time => exact spelled_infixToks ((hparen _).word rfl) hp operator
  | _ => exact spelled_infixToks (.cons rfl (hcol.word rfl)) hp operator

theorem spelled_jsonbToks (h : column.Fine) : Spelled (g.jsonbToks column) := by
  have hother : Spelled ([Tok.kw "("] ++ g.wrap column ++ [Tok.kw ")::jsonb"]) :=
    (Spelled.cons rfl (spelled_wrap hg h)).word rfl
  cases column with
  | name c =>
    exact .cons rfl (.tok (name_postgresSelector hg (by decide) c).closed (.word rfl))
  | expr => exact hother
  | sub => exact hother

theorem spelled_nullToks (not : Bool) (h : column.Fine) :
    Spelled (g.nullToks not column) := by
  have hword : Spelled (g.wrap column ++ [if not then Tok.kw " is not null" else .kw " is null"]) := by
    cases not with
    | false | true => exact (spelled_wrap hg h).word rfl
  have hmysql : g.isMySQL = false := by simp [isMySQL, hg]
  cases column with
  | name => simpa [nullToks, hmysql] using hword
  | expr => exact hword
  | sub => exact hword

theorem spelled_inToks (not : Bool) (h : column.Fine)
    {members : List (List (Tok Val))} (hm : ∀ ts ∈ members, Spelled ts) :
    Spelled (g.inToks not column members) := by
  unfold inToks
  split
  · cases not with
    | false | true => exact .cons rfl .nil
  · rw [append_assoc, append_assoc]
    cases not with
    | false | true => exact (spelled_wrap hg h).between rfl ((Sql.spelled_commaSep hm).word rfl)

theorem spelled_jsonContainsToks (h : column.Fine) (value : Val) :
    Spelled (g.jsonContainsToks column value) := by
  simp only [jsonContainsToks, hg, append_assoc]
  exact (spelled_jsonbToks hg h).between rfl (spelled_parameter value)

theorem name_postgresParent (c : Column) (left : List String) : Name (g.postgresParent c left) := by
  unfold postgresParent
  split
  · split
    · exact name_wrapSegments hg _
    · exact name_wrapSegments hg _
  · exact name_postgresSelector hg (by decide) _

theorem spelled_jsonContainsKeyToks (h : column.Fine) :
    Spelled (g.jsonContainsKeyToks column) := by
  have hother : Spelled ([Tok.kw "coalesce(("] ++ g.wrap column ++ [Tok.kw ")::jsonb, false)"]) :=
    (Spelled.cons rfl (spelled_wrap hg h)).word rfl
  cases column with
  | name c =>
    have hparent : ∀ left, (Tok.quoted (g.postgresParent c left) : Tok Val).whole :=
      fun left => (name_postgresParent hg c left).closed
    simp only [jsonContainsKeyToks, hg, postgresContainsKey]
    split
    · exact .cons rfl (.tok (hparent _) (.cons rfl (.tok (hparent _)
        (.cons rfl (.tok rfl (.word rfl))))))
    · exact .cons rfl (.tok (hparent _) (.cons rfl
        (.tok (Name.literal _).closed (.word rfl))))
  | expr | sub => simpa only [jsonContainsKeyToks, hg] using hother

theorem spelled_jsonLengthToks (h : column.Fine) (operator : String) (value : Val) :
    Spelled (g.jsonLengthToks column operator value) := by
  simp only [jsonLengthToks, hg]
  exact spelled_infixToks ((Spelled.cons rfl (spelled_jsonbToks hg h)).word rfl)
    (spelled_parameter value) operator

theorem spelled_jsonBooleanToks (h : column.Fine) (operator : String) (value : Val) :
    Spelled (g.jsonBooleanToks column operator value) := by
  have hliteral : (Tok.quoted "'?'::jsonb" : Tok Val).whole :=
    show inert "'?'::jsonb".toList = true by decide
  have hleft := spelled_jsonbToks hg h
  cases value with
  | expr =>
    simp only [jsonBooleanToks, hg]
    exact spelled_infixToks hleft (.single rfl) operator
  | _ =>
    simp only [jsonBooleanToks, hg]
    exact spelled_infixToks hleft (.single hliteral) operator

theorem spelled_fullTextToks {columns : List ColArg} (h : ∀ c ∈ columns, c.Fine) (value : Val)
    (o : FullTextOptions) {ts : List (Tok Val)} (hts : g.fullTextToks columns value o = some ts) :
    Spelled ts := by
  have hlang : ∀ l ∈ "english" :: fullTextLanguages, inert ("'" ++ l ++ "'").toList := by decide
  have hlit : (Tok.quoted ("'" ++ (if o.language ∈ fullTextLanguages then o.language else "english") ++ "'")
      : Tok Val).whole := by
    refine hlang _ ?_
    split
    · next h => exact mem_cons_of_mem _ h
    · exact mem_cons_self
  simp only [fullTextToks, hg, Option.some.injEq] at hts
  subst hts
  generalize (if o.language ∈ fullTextLanguages then o.language else "english") = language at hlit
  have hpart : ∀ c ∈ columns, Spelled (if o.vector then g.wrap c
      else [.kw "to_tsvector(", .quoted ("'" ++ language ++ "'"), .kw ", "] ++ g.wrap c ++ [.kw ")"]) := by
    intro c hc
    have hwrap := spelled_wrap hg (h c hc)
    split
    · exact hwrap
    · exact .cons rfl (.tok hlit (.cons rfl (hwrap.word rfl)))
  have hcall : Spelled ([.kw "(", .quoted ("'" ++ language ++ "'"), .kw ", "] ++ parameter value
      ++ [Tok.kw ")"]) :=
    .cons rfl (.tok hlit (.cons rfl ((spelled_parameter value).word rfl)))
  rw [append_assoc, append_assoc]
  refine (Sql.spelled_paren ?_).1.between rfl ?_
  · cases columns with
    | nil => exact .nil
    | cons c =>
      refine (hpart c (by simp)).tail (.flatMap fun us hu => ?_)
      obtain ⟨d, hd, rfl⟩ := mem_map.mp hu
      exact .cons rfl (hpart d (by simp [hd]))
  split <;> exact .cons rfl hcall

/-! ### Clauses -/

omit hg in
theorem spelled_intTok (v : Val) : Spelled (intTok v) := by
  cases v with
  | int | expr | str | float | bool => exact .single rfl
  | _ => exact .nil

omit hg in
theorem fine_default : (default : ColArg).Fine := nofun

omit hg in
theorem fine_endsOf (h : ∀ c ∈ cs, c.Fine) :
    (endsOf cs).1.Fine ∧ (endsOf cs).2.Fine := by
  constructor
  · cases hh : cs.head? with
    | none => simp only [endsOf, hh]; exact fine_default
    | some c => simp only [endsOf, hh]; exact h c (mem_of_mem_head? hh)
  · cases hh : cs.getLast? with
    | none => simp only [endsOf, hh]; exact fine_default
    | some c => simp only [endsOf, hh]; exact h c (mem_of_getLast? hh)

variable {Q : Type}

theorem spelled_compileWhere {sub : Q → Compiled} {w : Where Q}
    (hc : ∀ c ∈ w.colArgs, c.Fine) (hsub : ∀ q ∈ w.query, (sub q).Fine) :
    Spelled (g.compileWhere sub w).toks := by
  have hcolumn : w.column.Fine := hc _ (by simp [Where.colArgs])
  have hwrap := spelled_wrap hg hcolumn
  have hcolumns : ∀ c ∈ w.columns, c.Fine := fun c h => hc c (by simp [Where.colArgs, h])
  have hvalueColumns : ∀ c ∈ w.valueColumns, c.Fine := fun c h => hc c (by simp [Where.colArgs, h])
  have hvalues := fine_endsOf hvalueColumns
  have hends := fine_endsOf hcolumns
  have hsubquery : ∀ q ∈ w.query, ∀ pre post : List (Tok Val), Spelled pre → Tail post →
      Spelled (Cond.sub pre (sub q).query post).toks := by
    intro q hq pre post hpre hpost
    rw [Cond.toks]
    exact (hpre.tail (Sql.spelled_paren (hsub q hq).query)).tail hpost
  unfold compileWhere
  split
  · exact .single rfl
  · split
    · next q hq =>
      have hq' : Spelled q.toks := hcolumn q (by rw [hq]; rfl)
      rw [Cond.toks, nil_append]
      exact (Sql.spelled_paren hq').1.tail (tail_basicToks hg _ _)
    · exact spelled_basicToks hg hwrap _ _
  · rw [if_pos hg]
    exact (Spelled.cons rfl (spelled_infixToks hwrap (spelled_parameter _) _)).word rfl
  · exact spelled_basicToks hg hwrap _ _
  · refine spelled_inToks hg _ hcolumn fun ts hts => ?_
    obtain ⟨v, -, rfl⟩ := mem_map.mp hts
    exact spelled_parameter v
  · refine spelled_inToks hg _ hcolumn fun ts hts => ?_
    obtain ⟨v, -, rfl⟩ := mem_map.mp hts
    exact spelled_intTok v
  · exact spelled_nullToks hg _ hcolumn
  · exact spelled_betweenToks _ hwrap (spelled_parameter _) (spelled_parameter _)
  · exact spelled_betweenToks _ hwrap (spelled_wrap hg hvalues.1) (spelled_wrap hg hvalues.2)
  · exact spelled_betweenToks _ (spelled_parameter _) (spelled_wrap hg hends.1) (spelled_wrap hg hends.2)
  · rw [Cond.toks]; exact spelled_dateToks hg _ hcolumn _ _
  · rw [Cond.toks]; exact spelled_dateToks hg _ hcolumn _ _
  · rw [Cond.toks]; exact spelled_dateToks hg _ hcolumn _ _
  · rw [Cond.toks]; exact spelled_dateToks hg _ hcolumn _ _
  · rw [Cond.toks]; exact spelled_dateToks hg _ hcolumn _ _
  · exact spelled_infixToks (spelled_wrap hg (hc _ (by simp [Where.colArgs])))
      (spelled_wrap hg (hc _ (by simp [Where.colArgs]))) _
  · split
    · exact .nil
    · next q hq => exact (Sql.spelled_paren (Sql.spelled_clauses (hsub q hq).wheres)).1
  · split
    · exact spelled_unsupportedClause _
    · next q hq =>
      exact hsubquery q hq _ _ (hwrap.between rfl (.tok rfl (.word rfl))) .nil
  · split
    · exact spelled_unsupportedClause _
    · next q hq =>
      refine hsubquery q hq _ _ ?_ .nil
      split
      · exact .cons rfl .nil
      · exact .cons rfl .nil
  · exact spelled_infixToks (Sql.spelled_paren (spelled_columnize hg hcolumns)).1
      (Sql.spelled_paren (spelled_parameterize _)).1 _
  · exact spelled_jsonBooleanToks hg hcolumn _ _
  · exact spelled_negated _ (spelled_jsonContainsToks hg hcolumn _)
  · split
    · next ts hts => simp [jsonOverlapsToks, hg] at hts
    · exact spelled_unsupportedClause _
  · exact spelled_negated _ (spelled_jsonContainsKeyToks hg hcolumn)
  · exact spelled_jsonLengthToks hg hcolumn _ _
  · split
    · next ts hts => exact spelled_fullTextToks hg hcolumns _ _ hts
    · exact spelled_unsupportedClause _
  · exact hwrap
  · exact spelled_unsupportedClause _

theorem spelled_compileHaving {sub : Q → Compiled} {h : Having Q} (hc : h.column.Fine)
    (hsub : ∀ q ∈ h.query, (sub q).Fine) : Spelled (g.compileHaving sub h) := by
  have hwrap := spelled_wrap hg hc
  have hbasic : Spelled (infixToks (g.wrap h.column) h.operator (parameter h.value)) :=
    spelled_infixToks hwrap (spelled_parameter _) _
  unfold compileHaving
  dsimp only
  split
  · exact .single rfl
  · exact spelled_betweenToks _ hwrap (spelled_parameter _) (spelled_parameter _)
  · exact hwrap.word rfl
  · exact hwrap.word rfl
  · exact (Spelled.cons rfl hbasic).word rfl
  · exact hwrap
  · refine (Sql.spelled_paren (Sql.spelled_joinClauses ?_)).1
    cases hq : h.query with
    | none => exact nofun
    | some q => exact (hsub q hq).havings
  · rw [if_pos hg]
    exact (Spelled.cons rfl hbasic).word rfl
  · exact hbasic

theorem spelled_compileSource {t : TableArg} (h : t.Fine) : Spelled (g.compileSource t).toks := by
  cases t with
  | table t => exact .single (name_wrapTableText hg t).closed
  | expr => exact .single rfl
  | sub q as =>
    exact (Sql.spelled_paren (h q rfl)).1.tail
      (.cons rfl (.single (name_wrapTableName hg as).closed))

theorem spelled_compileItem {c : ColArg} (h : c.Fine) : Spelled (g.compileItem c).toks := by
  cases c with
  | name | expr | sub => exact spelled_wrap hg h

omit hg in
theorem lead_joinWord (k : Sql.JoinKind) : Lead (g.joinWord k) := by
  cases k with
  | straight =>
    simp only [joinWord]
    split
    · exact .cons rfl .nil
    · exact .cons rfl .nil
  | _ => exact .cons rfl .nil

omit hg in
theorem lead_lateralWord (k : Sql.JoinKind) : Lead (lateralWord k) := by
  cases k <;> exact .cons rfl .nil

theorem spelled_compileJoin {sub : Q → Compiled} {j : JoinClause Q} (ht : j.table.Fine)
    (hsub : (sub j.builder).Fine) : Spelled (g.compileJoin sub j).toks := by
  have hsrc := spelled_compileSource hg ht
  have hright : Spelled (Sql.nestedToks (g.compileSource j.table).toks
      (Sql.joinParts (sub j.builder).joins)) := by
    refine Sql.spelled_nestedToks hsrc fun ts hts => ?_
    rw [Sql.joinParts_eq] at hts
    obtain ⟨k, hk, rfl⟩ := mem_map.mp hts
    exact hsub.joins k hk
  unfold compileJoin
  split
  · rw [if_pos (by simp [supportsLateral, hg]), Sql.Join.toks]
    exact ((lead_lateralWord _).append hright).tail (.word rfl)
  · rw [Sql.Join.toks]
    exact ((lead_joinWord _).append hright).tail
      (Sql.tail_after rfl (Sql.spelled_clauses hsub.wheres))

/-! ### The select -/

section Select

variable {Q : Type} {sub : Q → Compiled} {b : Builder Q} (hcols : ∀ c ∈ b.colArgs, c.Fine)
  (htables : ∀ t ∈ b.tableArgs, t.Fine) (hsub : ∀ q ∈ b.children, (sub q).Fine)

theorem tail_compileOrders {os : List Order} (h : ∀ o ∈ os, o.column.Fine) : Tail (g.compileOrders os) := by
  refine Sql.tail_after rfl (Sql.spelled_commaSep fun ts hts => ?_)
  obtain ⟨o, ho, rfl⟩ := mem_map.mp hts
  unfold compileOrder
  split
  · exact .single rfl
  · exact (spelled_wrap hg (h o ho)).between rfl (.single rfl)

omit hg in
theorem tail_compileLimit (n : Option Nat) : Tail (compileLimit n) := by
  cases n with
  | none => exact .nil
  | some => exact .cons rfl (.single rfl)

omit hg in
theorem tail_compileOffset (n : Option Nat) : Tail (compileOffset n) := by
  cases n with
  | none => exact .nil
  | some => exact .cons rfl (.single rfl)

theorem tail_compileLock (l : Option Lock) : Tail (g.compileLock l) := by
  cases l with
  | none => exact .nil
  | some l =>
    cases l with
    | flag u =>
      simp only [compileLock, hg]
      cases u with
      | false => exact .word rfl
      | true => exact .word rfl
    | text =>
      simp only [compileLock, hg]
      split
      · exact .nil
      · exact .cons rfl (.single rfl)

theorem tail_compileIndexHint (h : Option IndexHint) : Tail (g.compileIndexHint h) := by
  cases h with
  | none => exact .nil
  | some => simp only [compileIndexHint, hg]; exact .nil

include hcols in
omit hg in
theorem fine_columns : ∀ c ∈ b.columns.getD [], c.Fine := fun c h => hcols c (by simp [Builder.colArgs, h])

include hcols in
theorem spelled_aggregateColumns {a : Aggregate} (ha : b.aggregate = some a) :
    Spelled (g.aggregateColumns b.distinct a.columns) := by
  have hcolumn : Spelled (g.columnize a.columns) :=
    spelled_columnize hg fun c h => hcols c (by simp [Builder.colArgs, ha, h])
  unfold aggregateColumns
  dsimp only
  split
  · next cs hd =>
    exact .cons rfl
      (spelled_columnize hg fun c h => hcols c (by simp [Builder.colArgs, hd, Distinct.colArgs, h]))
  · split
    · exact .cons rfl hcolumn
    · exact hcolumn
  · exact hcolumn

include hcols in
theorem lead_selectHead : Lead (g.selectHead b) := by
  unfold selectHead
  split
  · next a ha =>
    exact .word rfl (.cons rfl (.cons rfl (.tok rfl (.cons rfl
      (spelled_aggregateColumns hg hcols ha)))))
  · split
    · exact .cons rfl (.cons rfl .nil)
    · exact .cons rfl (.cons rfl .nil)
    · next cs hd =>
      rw [if_pos hg]
      exact .word rfl (.cons rfl (.cons rfl
        (spelled_columnize hg fun c h => hcols c (by simp [Builder.colArgs, hd, Distinct.colArgs, h]))))

include hcols in
theorem spelled_selectItems : ∀ i ∈ g.selectItems b, Spelled i.toks := by
  intro i hi
  unfold selectItems at hi
  split at hi
  · cases hi
  · obtain ⟨c, hc, rfl⟩ := mem_map.mp hi
    refine spelled_compileItem hg ?_
    cases hb : b.columns with
    | none =>
      rw [hb, Option.getD_none, mem_singleton] at hc
      rw [hc]
      exact nofun
    | some => exact fine_columns hcols c (by rw [hb] at hc ⊢; exact hc)

include hcols hsub in
theorem spelled_compileHavings : ∀ p ∈ g.compileHavings sub b.havings, Spelled p.2 := by
  intro p hp
  obtain ⟨h, hh, rfl⟩ := mem_map.mp hp
  refine spelled_compileHaving hg (hcols _ ?_) fun q hq => hsub q ?_
  · simp only [Builder.colArgs, mem_append, mem_map]
    exact .inl (.inl (.inl (.inr ⟨h, hh, rfl⟩)))
  · exact Builder.mem_children.mpr (.inr (.inl ⟨h, hh, hq⟩))

include hcols hsub in
theorem tail_groupsAndHavings : Tail (g.groupsAndHavings sub b) :=
  (Sql.tail_after rfl (spelled_columnize hg fun c h => hcols c (by
    simp [Builder.colArgs, h]))).append
    (Sql.tail_after rfl (Sql.spelled_joinClauses (spelled_compileHavings hg hcols hsub)))

include hcols hsub in
theorem spelled_whereClauses : ∀ p ∈ g.whereClauses sub b.wheres, Spelled p.2.toks := by
  intro p hp
  obtain ⟨w, hw, rfl⟩ := mem_map.mp hp
  refine spelled_compileWhere hg (fun c hc => hcols c ?_) fun q hq => hsub q ?_
  · simp only [Builder.colArgs, mem_append, mem_flatMap]
    exact .inl (.inl (.inl (.inl (.inl (.inr ⟨w, hw, hc⟩)))))
  · exact Builder.where_mem_children hw hq

include htables hsub in
theorem spelled_compileJoins : ∀ j ∈ g.compileJoins sub b.joins, Spelled j.toks := by
  intro j hj
  obtain ⟨k, hk, rfl⟩ := mem_map.mp hj
  refine spelled_compileJoin hg (htables _ ?_) (hsub _ (Builder.join_mem_children hk))
  simp only [Builder.tableArgs, mem_append, mem_map]
  exact .inr ⟨k, hk, rfl⟩

include hcols htables hsub in
theorem spelled_selectWith {items : List (Sql.Item Val)} {tail : List (Tok Val)}
    (hitems : ∀ i ∈ items, Spelled i.toks) (htail : Tail tail) :
    Spelled (g.selectWith sub b items tail).toks := by
  refine Sql.spelled_select (lead_selectHead hg hcols) hitems ?_ (tail_compileIndexHint hg _)
    (spelled_compileJoins hg htables hsub) (spelled_whereClauses hg hcols hsub) htail
  intro s hs
  obtain ⟨t, ht, rfl⟩ := Option.map_eq_some_iff.mp hs
  exact spelled_compileSource hg (htables t (by simp [Builder.tableArgs, ht]))

include hcols in
omit hg in
theorem fine_orders : (∀ o ∈ b.orders, o.column.Fine) ∧ ∀ o ∈ b.unionOrders, o.column.Fine := by
  constructor
  · intro o ho
    refine hcols _ ?_
    simp only [Builder.colArgs, mem_append, mem_map]
    exact .inl (.inl (.inr ⟨o, ho, rfl⟩))
  · intro o ho
    refine hcols _ ?_
    simp only [Builder.colArgs, mem_append, mem_map]
    exact .inl (.inr ⟨o, ho, rfl⟩)

include hcols htables hsub in
theorem spelled_compilePlain : Spelled (g.compilePlain sub b).toks := by
  have horders := fine_orders hcols
  have hcore : Spelled (g.selectWith sub b (g.selectItems b)
      (g.groupsAndHavings sub b ++ g.compileOrders b.orders ++ compileLimit b.limit
        ++ compileOffset b.offset ++ g.compileLock b.lock)).toks :=
    spelled_selectWith hg hcols htables hsub (spelled_selectItems hg hcols)
      (((((tail_groupsAndHavings hg hcols hsub).append (tail_compileOrders hg horders.1)).append
        (tail_compileLimit _)).append (tail_compileOffset _)).append (tail_compileLock hg _))
  have hopen : g.openUnion = [.kw "("] := by simp [openUnion, hg]
  unfold compilePlain
  dsimp only
  split
  · exact hcore
  · refine Sql.spelled_compound ?_ hcore ?_ ?_
    · rw [hopen]; exact .cons rfl .nil
    · intro p hp
      obtain ⟨u, hu, rfl⟩ := mem_map.mp hp
      have hq := (hsub _ (Builder.union_mem_children hu)).query
      dsimp only
      rw [hopen]
      cases u.all with
      | false | true =>
        exact ⟨.cons rfl (.cons rfl (.cons rfl .nil)),
          .cons rfl (.cons rfl (.cons rfl .nil)), cons_ne_nil _ _, hq⟩
    · exact ((Tail.word rfl).append (tail_compileOrders hg horders.2)).append
        (tail_compileLimit _) |>.append (tail_compileOffset _)

include hcols htables hsub in
theorem spelled_compileRowNumber (limit : GroupLimit) : Spelled (g.compileRowNumber sub b limit).toks := by
  have hrow : (Tok.quoted (g.wrapValue "laravel_row") : Tok Val).whole :=
    (name_wrapValue hg _).closed
  have htable : (Tok.quoted (g.wrapValue "laravel_table") : Tok Val).whole :=
    (name_wrapValue hg _).closed
  have hnumber : Spelled (g.rowNumberToks b limit) :=
    .cons rfl (.tok (name_wrapColumn hg _).closed
      ((tail_compileOrders hg (fine_orders hcols).1).append (.cons rfl (.single hrow))))
  have hend : Tail ((b.offset.map fun n => [Tok.kw " and ", .quoted (g.wrapValue "laravel_row"),
      .kw " > ", Tok.num n]).getD [] : List (Tok Val)) := by
    cases b.offset with
    | none => exact .nil
    | some => exact .cons rfl (.tok hrow (.cons rfl (.single rfl)))
  unfold compileRowNumber
  dsimp only
  refine Sql.spelled_compound (.cons rfl (.cons rfl .nil)) ?_ nofun ?_
  · refine spelled_selectWith hg hcols htables hsub ?_
      (((tail_groupsAndHavings hg hcols hsub).append (tail_compileLimit _)).append (tail_compileLock hg _))
    intro i hi
    rcases mem_append.mp hi with hi | hi
    · exact spelled_selectItems hg hcols i hi
    · rw [mem_singleton.mp hi, Sql.Item.toks]
      split
      · exact .cons rfl hnumber
      · exact hnumber
  · exact ((Tail.cons rfl (.tok htable (.cons rfl (.tok hrow
      (.cons rfl (.single rfl)))))).append hend).append (.cons rfl (.single hrow))

theorem withTimeout_eq (timeout : Option Nat) (q : Sql.Query Val) : g.withTimeout timeout q = q := by
  unfold withTimeout
  split
  · rfl
  · rw [if_neg (by simp [isMySQL, hg])]

include hcols htables hsub in
theorem spelled_compileUnaggregated : Spelled (g.compileUnaggregated sub b).toks := by
  have hwindow : g.windowed := by simp [windowed, hg]
  rw [compileUnaggregated, withTimeout_eq hg]
  split
  · rw [compileGroupLimit, if_pos hwindow]
    exact spelled_compileRowNumber hg hcols htables hsub _
  · exact spelled_compilePlain hg hcols htables hsub

include hcols htables hsub in
/-- One builder, its references compiled. -/
theorem fine_compileBuilder : (g.compileBuilder sub b).Fine := by
  refine ⟨?_, spelled_whereClauses hg hcols hsub, spelled_compileHavings hg hcols hsub,
    spelled_compileJoins hg htables hsub⟩
  · show Spelled (g.compileSelect sub b).toks
    unfold compileSelect
    split
    · next a ha =>
      split
      · exact spelled_compileUnaggregated hg hcols htables hsub
      · have hinner : Spelled (g.compileUnaggregated sub { b with aggregate := none }).toks := by
          refine spelled_compileUnaggregated hg (fun c hc => hcols c ?_) htables hsub
          simp only [Builder.colArgs, Option.map_none, Option.getD_none, nil_append] at hc
          simp only [Builder.colArgs, mem_append] at hc ⊢
          exact hc.imp_right .inr
        rw [withTimeout_eq hg]
        exact Sql.spelled_compound (.word rfl (.cons rfl (.cons rfl (.tok rfl
          (.cons rfl (spelled_aggregateColumns hg hcols ha)))))) hinner (fun p hp => absurd hp not_mem_nil)
          (.cons rfl (.single (name_wrapTableName hg _).closed))
    · exact spelled_compileUnaggregated hg hcols htables hsub

end Select

omit hg in
/-- The subqueries compiled into a builder are spelled out. -/
theorem fine_of_embedded {b : Builder Tree} (h : ∀ q ∈ b.embedded, Spelled q.toks) :
    (∀ c ∈ b.colArgs, c.Fine) ∧ ∀ t ∈ b.tableArgs, t.Fine := by
  constructor
  · intro c hc q hq
    exact h q (mem_append_left _ (mem_filterMap.mpr ⟨c, hc, hq⟩))
  · intro t ht q hq
    exact h q (mem_append_right _ (mem_filterMap.mpr ⟨t, ht, hq⟩))

/-- **Every select the Postgres grammar compiles is spelled out.** -/
theorem fine_compile {t : Tree} (h : Made g t) : (g.compile t).Fine := by
  induction h with
  | node _ _ compiled _ made below =>
    obtain ⟨hcols, htables⟩ := fine_of_embedded fun q hq => by
      rw [compiled q hq]
      exact (made q hq).query
    rw [compile_node]
    exact fine_compileBuilder hg hcols htables below

end Postgres

end Grammar

end Hesape.Query
