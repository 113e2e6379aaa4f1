import Hesape.Query.Rebinding

/-!
# The rows of an insert

An insert of several rows is compiled by one function and bound by another.  `CompileInsert`
takes its columns from the first row and writes one placeholder for each of them in every
row; `flattenRows` lists each row's own values in the order of that row's own keys, and
`CleanBindings` drops the expressions.

A value is followed from where it was given to where it is written as a `Cell`: the number of
its row, its column and itself.  `LinedUp` says that the cells sent are the cells written.
They are exactly when every row has the columns of the first, and beside them nothing but
expressions (`linedUp_iff`).
-/

namespace Hesape.Query

open Sql (Tok KeyMap commaSep placeholders)
open List

/-! ### The two lists -/

/-- `stampTenant`. -/
def stampTenant (values : List (KeyMap Val)) (tenant : String) : List (KeyMap Val) :=
  values.map fun row =>
    (row.filter fun k _ => !namesColumn k tenantColumn).insert tenantColumn (.str tenant)

def flattenRow (row : KeyMap Val) : List Val := row.entries.map Prod.snd

def flattenRows (rows : List (KeyMap Val)) : List Val := rows.flatMap flattenRow

namespace Grammar

variable (g : Grammar)

/-- `CompileInsertOrIgnore`: the first word of the insert is replaced, or an ending added. -/
def compileInsertOrIgnore (b : Builder Tree) (rows : List (KeyMap Val)) : List (Tok Val) :=
  match g.dialect with
  | .mysql | .mariadb => .kw "insert ignore into " :: (g.compileInsert b rows).tail
  | .sqlite => .kw "insert or ignore into " :: (g.compileInsert b rows).tail
  | .postgres => g.compileInsert b rows ++ [.kw " on conflict do nothing"]

/-- `CompileUpsert` of the MySQL grammar; `useUpsertAlias` is a setting of the connection. -/
def compileUpsertMySQL (useUpsertAlias : Bool) (b : Builder Tree) (rows : List (KeyMap Val))
    (update : List String) : List (Tok Val) :=
  g.compileInsert b rows ++ (if useUpsertAlias then [.kw " as laravel_upsert_alias"] else [])
    ++ [.kw " on duplicate key update "] ++ commaSep (update.map fun k =>
      let column := Tok.quoted (g.wrapColumn (parseColumn k))
      if useUpsertAlias then
        [column, .kw " = ", .quoted (g.wrapValue "laravel_upsert_alias"), .kw ".", column]
      else [column, .kw " = values(", column, .kw ")"])

end Grammar

/-- The writes that take a list of rows.  An upsert with no column to be unique by is refused,
and one told to update nothing is an insert. -/
inductive BatchWrite
  | insert
  | insertOrIgnore
  | upsert (uniqueBy : List String) (named : uniqueBy ≠ []) (update : Option (List String))
      (useUpsertAlias : Bool)

/-- The columns of an insert are those of its first row. -/
def insertColumns (rows : List (KeyMap Val)) : List String := (rows.head?.map KeyMap.keys).getD []

def BatchWrite.toks (g : Grammar) (b : Builder Tree) (rows : List (KeyMap Val)) :
    BatchWrite → List (Tok Val)
  | insert => g.compileInsert b rows
  | insertOrIgnore => g.compileInsertOrIgnore b rows
  | upsert _ _ (some []) _ => g.compileInsert b rows
  | upsert uniqueBy _ update useUpsertAlias =>
    let update := update.getD (insertColumns rows)
    if g.isMySQL then g.compileUpsertMySQL useUpsertAlias b rows update
    else g.compileUpsert b rows uniqueBy update

/-! ### Cells -/

/-- A value with the row and the column it belongs to. -/
structure Cell where
  row : Nat
  column : String
  value : Val
  deriving DecidableEq

def Cell.bound (c : Cell) : Bool := !c.value.isExpression

/-- The value a row has for a column, null where it has none. -/
def valueAt (row : KeyMap Val) (column : String) : Val := (row.entries.lookup column).getD .null

/-- The cells a caller gave, in the order they are flattened. -/
def givenCells (rows : List (KeyMap Val)) : List Cell :=
  rows.zipIdx.flatMap fun r => r.1.entries.map fun e => ⟨r.2, e.1, e.2⟩

/-- The cells of the values list, in the order they are written. -/
def writtenCells (rows : List (KeyMap Val)) : List Cell :=
  rows.zipIdx.flatMap fun r => (insertColumns rows).map fun c => ⟨r.2, c, valueAt r.1 c⟩

/-- Each placeholder of the statement takes one value, the value it was written for, and that
value was given for the row and the column the placeholder stands at. -/
def LinedUp (g : Grammar) (b : Builder Tree) (w : BatchWrite) (rows : List (KeyMap Val)) : Prop :=
  Sql.Aligned (w.toks g b rows) (cleanBindings (flattenRows rows))
    ∧ (givenCells rows).filter Cell.bound = (writtenCells rows).filter Cell.bound

theorem flatMap_zipIdx {A B : Type} (f : A → List B) (l : List A) :
    (l.zipIdx.flatMap fun p => f p.1) = l.flatMap f := by
  rw [← flatMap_map Prod.fst f, zipIdx_map_fst]

theorem givenCells_value (rows : List (KeyMap Val)) :
    (givenCells rows).map Cell.value = flattenRows rows := by
  simp only [givenCells, map_flatMap, map_map]
  exact flatMap_zipIdx flattenRow rows

theorem writtenCells_value (rows : List (KeyMap Val)) :
    (writtenCells rows).map Cell.value
      = rows.flatMap fun r => (insertColumns rows).map (valueAt r) := by
  simp only [writtenCells, map_flatMap, map_map]
  exact flatMap_zipIdx (fun r => (insertColumns rows).map (valueAt r)) rows

/-- Cleaning the values is cleaning the cells. -/
theorem cleanBindings_value (cs : List Cell) :
    cleanBindings (cs.map Cell.value) = (cs.filter Cell.bound).map Cell.value := by
  rw [cleanBindings, filter_map]
  rfl

/-! ### The placeholders of the statement -/

section Placeholders

variable {g : Grammar} {b : Builder Tree}

theorem placeholders_columnNames (keys : List String) : placeholders (g.columnNames keys) = [] := by
  rw [Grammar.columnNames, Grammar.columnize, Sql.placeholders_commaSep]
  simp [Grammar.wrap, Sql.Tok.placeholders]

theorem placeholders_parameterize (vs : List Val) :
    placeholders (parameterize vs) = vs.flatMap fun v => placeholders (parameter v) := by
  rw [parameterize, Sql.placeholders_commaSep, flatMap_map]

theorem placeholders_compileInsert (first : KeyMap Val) (rest : List (KeyMap Val)) :
    placeholders (g.compileInsert b (first :: rest)) = placeholders (g.writeSource b).toks
      ++ ((writtenCells (first :: rest)).map Cell.value).flatMap
        fun v => placeholders (parameter v) := by
  rw [writtenCells_value, flatMap_assoc]
  simp only [Grammar.compileInsert, Sql.placeholders_append, Sql.placeholders_cons,
    Sql.placeholders_nil, Sql.Tok.placeholders, placeholders_columnNames,
    Sql.placeholders_commaSep, flatMap_map, Sql.placeholders_paren,
    placeholders_parameterize, nil_append]
  rfl

/-- The endings of the other statements hold no placeholder. -/
theorem placeholders_toks (w : BatchWrite) (rows : List (KeyMap Val)) :
    placeholders (w.toks g b rows) = placeholders (g.compileInsert b rows) := by
  have htail : placeholders (g.compileInsert b rows).tail = placeholders (g.compileInsert b rows) := by
    simp [Grammar.compileInsert, Sql.Tok.placeholders]
  cases w with
  | insert => rfl
  | insertOrIgnore =>
    simp only [BatchWrite.toks, Grammar.compileInsertOrIgnore]
    split <;> simp [htail, Sql.Tok.placeholders]
  | upsert uniqueBy _ update useUpsertAlias =>
    have hupdate : ∀ columns, placeholders (if g.isMySQL then
        g.compileUpsertMySQL useUpsertAlias b rows columns else g.compileUpsert b rows uniqueBy columns)
        = placeholders (g.compileInsert b rows) := by
      intro columns
      split
      · cases useUpsertAlias <;>
          simp [Grammar.compileUpsertMySQL, Sql.placeholders_commaSep, Sql.Tok.placeholders]
      · simp [Grammar.compileUpsert, Sql.placeholders_commaSep, placeholders_columnNames,
          Sql.Tok.placeholders]
    cases update with
    | none => exact hupdate _
    | some columns =>
      cases columns with
      | nil => rfl
      | cons => exact hupdate _

end Placeholders

/-! ### When the rows line up -/

/-- An expression without a placeholder of its own. -/
def Val.unmarked : Val → Prop
  | expr sql _ => Sql.marks sql = 0
  | _ => True

/-- What `Parameter` writes for a value is what is sent for it. -/
theorem placeholders_parameter_iff (v : Val) :
    placeholders (parameter v) = v.binding.map some ↔ v.unmarked := by
  cases v with
  | expr sql args =>
    have : placeholders (parameter (.expr sql args))
        = (range (Sql.marks sql)).map fun i => args[i]? := by
      simp [parameter, Sql.Tok.placeholders]
    rw [this]
    simp [Val.binding, Val.isExpression, Val.unmarked]
  | _ => simp [parameter, Sql.Tok.placeholders, Val.binding, Val.isExpression, Val.unmarked]

theorem binding_sublist (v : Val) : (v.binding.map some).Sublist (placeholders (parameter v)) := by
  cases v with
  | expr => exact nil_sublist _
  | _ => exact List.Sublist.refl _

theorem cleanBindings_eq_flatMap (vs : List Val) : cleanBindings vs = vs.flatMap Val.binding := by
  induction vs with
  | nil => rfl
  | cons v => cases v <;> simp_all [cleanBindings, Val.binding, Val.isExpression]

/-- Every row has the columns of the first, no expression among them brings a placeholder, and
what a row has beside them is expressions, which are not sent. -/
def Regular (rows : List (KeyMap Val)) : Prop :=
  ∀ r ∈ rows, (∀ c ∈ insertColumns rows, ∃ v, (c, v) ∈ r.entries ∧ v.unmarked)
    ∧ ∀ e ∈ r.entries, e.1 ∉ insertColumns rows → e.2.isExpression = true

theorem valueAt_of_mem {m : KeyMap Val} {e : String × Val} (h : e ∈ m.entries) :
    valueAt m e.1 = e.2 := by
  rw [valueAt, KeyMap.lookup_of_mem h, Option.getD_some]

variable {rows : List (KeyMap Val)}

theorem mem_givenCells {c : Cell} :
    c ∈ givenCells rows ↔ ∃ r, rows[c.row]? = some r ∧ (c.column, c.value) ∈ r.entries := by
  simp only [givenCells, mem_flatMap, mem_map, Prod.exists, mem_zipIdx_iff_getElem?]
  constructor
  · rintro ⟨r, i, hr, k, v, hkv, rfl⟩
    exact ⟨r, hr, hkv⟩
  · rintro ⟨r, hr, hkv⟩
    exact ⟨r, c.row, hr, c.column, c.value, hkv, rfl⟩

theorem mem_writtenCells {c : Cell} :
    c ∈ writtenCells rows ↔ ∃ r, rows[c.row]? = some r ∧ c.column ∈ insertColumns rows
      ∧ valueAt r c.column = c.value := by
  simp only [writtenCells, mem_flatMap, mem_map, Prod.exists,
    mem_zipIdx_iff_getElem?]
  constructor
  · rintro ⟨r, i, hr, k, hk, rfl⟩
    exact ⟨r, hr, hk, rfl⟩
  · rintro ⟨r, hr, hk, hv⟩
    exact ⟨r, c.row, hr, c.column, hk, by rw [hv]⟩

theorem insertColumns_sorted (rows : List (KeyMap Val)) :
    (insertColumns rows).Pairwise (· < ·) := by
  cases rows with
  | nil => exact .nil
  | cons first => exact pairwise_map.mpr first.sorted

/-- The cells agree row by row: two lists in key order with the same members. -/
theorem cells_eq_of_regular (h : Regular rows) :
    (givenCells rows).filter Cell.bound = (writtenCells rows).filter Cell.bound := by
  simp only [givenCells, writtenCells, filter_flatMap]
  refine flatMap_congr fun p hp => ?_
  obtain ⟨r, i⟩ := p
  obtain ⟨hcols, hextra⟩ := h r (fst_mem_of_mem_zipIdx hp)
  have hsorted : ∀ {l : List Cell}, l.Pairwise (fun a b => a.column < b.column) →
      (l.filter Cell.bound).Pairwise fun a b => a.column < b.column := fun h => h.filter _
  have hl := hsorted (pairwise_map.mpr r.sorted :
    (r.entries.map fun e => (⟨i, e.1, e.2⟩ : Cell)).Pairwise fun a b => a.column < b.column)
  have hr := hsorted (pairwise_map.mpr (insertColumns_sorted rows) :
    ((insertColumns rows).map fun c => (⟨i, c, valueAt r c⟩ : Cell)).Pairwise
      fun a b => a.column < b.column)
  refine List.Perm.eq_of_pairwise
    (fun a b _ _ hab hba => absurd (lt_trans hab hba) (lt_irrefl _)) hl hr ?_
  have hnodup : ∀ {l : List Cell}, l.Pairwise (fun a b => a.column < b.column) → l.Nodup :=
    fun h => h.imp fun hab he => absurd (he ▸ hab) (lt_irrefl _)
  refine (perm_ext_iff_of_nodup (hnodup hl) (hnodup hr)).mpr fun c => ?_
  simp only [mem_filter, mem_map, Prod.exists]
  constructor
  · rintro ⟨⟨k, v, hkv, rfl⟩, hb⟩
    have hk : k ∈ insertColumns rows := by
      by_contra hk
      simp [Cell.bound, hextra (k, v) hkv hk] at hb
    exact ⟨⟨k, hk, by rw [valueAt_of_mem hkv]⟩, hb⟩
  · rintro ⟨⟨k, hk, rfl⟩, hb⟩
    obtain ⟨v, hkv, -⟩ := hcols k hk
    exact ⟨⟨k, v, hkv, by rw [valueAt_of_mem hkv]⟩, hb⟩

theorem unmarked_of_regular (h : Regular rows) {c : Cell} (hc : c ∈ writtenCells rows) :
    c.value.unmarked := by
  obtain ⟨r, hr, hcol, hval⟩ := mem_writtenCells.mp hc
  obtain ⟨v, hkv, hum⟩ := (h r (mem_of_getElem? hr)).1 _ hcol
  rw [← hval, valueAt_of_mem hkv]
  exact hum

/-- **The rows of a batch line up exactly when they are regular** and the table is not an
expression with a placeholder. -/
theorem linedUp_iff (g : Grammar) (b : Builder Tree) (w : BatchWrite) (first : KeyMap Val)
    (rest : List (KeyMap Val)) (tenant : String) :
    LinedUp g b w (stampTenant (first :: rest) tenant)
      ↔ placeholders (g.writeSource b).toks = []
        ∧ Regular (stampTenant (first :: rest) tenant) := by
  rw [LinedUp, Sql.Aligned, placeholders_toks, ← givenCells_value, cleanBindings_value]
  obtain ⟨row, rows, hrows⟩ : ∃ row rows, stampTenant (first :: rest) tenant = row :: rows :=
    ⟨_, _, rfl⟩
  rw [hrows, placeholders_compileInsert]
  generalize hall : row :: rows = all
  have hsent : (((writtenCells all).filter Cell.bound).map Cell.value).map some
      = ((writtenCells all).map Cell.value).flatMap fun v => v.binding.map some := by
    rw [← cleanBindings_value, cleanBindings_eq_flatMap, map_flatMap]
  constructor
  · rintro ⟨haligned, hcells⟩
    rw [hcells, hsent] at haligned
    obtain ⟨hsource, hvalues⟩ :=
      Sql.flatMap_eq_of_sublist (fun v _ => binding_sublist v) haligned
    refine ⟨hsource, fun r hr => ?_⟩
    obtain ⟨i, hi⟩ := mem_iff_getElem?.mp hr
    refine ⟨fun c hc => ?_, fun e he hne => ?_⟩
    · have hw : (⟨i, c, valueAt r c⟩ : Cell) ∈ writtenCells all :=
        mem_writtenCells.mpr ⟨r, hi, hc, rfl⟩
      have hum := (placeholders_parameter_iff _).mp (hvalues _ (mem_map_of_mem hw))
      refine ⟨valueAt r c, ?_, hum⟩
      cases hx : (valueAt r c).isExpression with
      | true =>
        -- An expression is not null, so the row has the column.
        unfold valueAt at hx ⊢
        cases hl : r.entries.lookup c with
        | none => simp [hl, Val.isExpression] at hx
        | some =>
          obtain ⟨_, _, he, -⟩ := lookup_eq_some_iff.mp hl
          rw [he]
          exact mem_append_right _ mem_cons_self
      | false =>
        have hg : (⟨i, c, valueAt r c⟩ : Cell) ∈ (givenCells all).filter Cell.bound := by
          rw [hcells]
          exact mem_filter.mpr ⟨hw, by simp [Cell.bound, hx]⟩
        obtain ⟨_, hr', hm⟩ := mem_givenCells.mp (mem_filter.mp hg).1
        cases hi.symm.trans hr'
        exact hm
    · by_contra hx
      have hg : (⟨i, e.1, e.2⟩ : Cell) ∈ (writtenCells all).filter Cell.bound := by
        rw [← hcells]
        exact mem_filter.mpr ⟨mem_givenCells.mpr ⟨r, hi, he⟩, by simpa [Cell.bound] using hx⟩
      obtain ⟨_, _, hc, _⟩ := mem_writtenCells.mp (mem_filter.mp hg).1
      exact hne hc
  · rintro ⟨hsource, hregular⟩
    have hcells := cells_eq_of_regular hregular
    refine ⟨?_, hcells⟩
    rw [hcells, hsent, hsource, nil_append]
    refine flatMap_congr fun v hv => (placeholders_parameter_iff v).mpr ?_
    obtain ⟨c, hc, rfl⟩ := mem_map.mp hv
    exact unmarked_of_regular hregular hc

/-- The rows `a: 1` and `z: "globex"` given under the grant of `acme`. -/
def unlikeRows : List (KeyMap Val) :=
  stampTenant [.ofList [("a", .int 1)], .ofList [("z", .str "globex")]] "acme"

/-- **A value is written under a column it was not given for**: the second row has no `a`, so
its tenant is sent for `a` and its `z` is sent for the tenant column. -/
theorem unlike_rows_misplaced :
    insertColumns unlikeRows = ["a", "tenant_id"]
      ∧ cleanBindings (flattenRows unlikeRows) = [.int 1, .str "acme", .str "acme", .str "globex"]
      ∧ ∀ g b w, ¬ LinedUp g b w unlikeRows := by
  refine ⟨by decide +kernel, by decide +kernel, fun g b w h => ?_⟩
  have hne : (givenCells unlikeRows).filter Cell.bound
      ≠ (writtenCells unlikeRows).filter Cell.bound := by decide +kernel
  exact hne h.2

end Hesape.Query
