import Hesape.Query.Scope
import Mathlib.Data.List.Forall2

/-!
# What the scoping passes leave

Each pass of `scopeNested` is read off once: `mapE_eq_ok` for the passes over a list,
`foldE_scopeSub` for the recorded subqueries, `foldl_scopeJoin` for the joined tables.
`scopeNested_ok` puts them together and says what a scoped builder is, field by field;
nothing later unfolds a pass.
-/

namespace Hesape.Query

open List

/-! ### Fallible maps and folds -/

variable {A B Q : Type} {b : Builder Tree} {tenant : String} {g : Grammar}

/-- What an evaluation shows of the value, and what follows from it. -/
theorem exists_ok {E : Type} {x : Except E A} {P R : A → Prop} [DecidablePred P] (h : x.toOption.any (P ·))
    (hr : ∀ a, x = .ok a → P a → R a) : ∃ a, x = .ok a ∧ R a := by
  cases x with
  | error => cases h
  | ok a => exact ⟨a, rfl, hr a rfl (of_decide_eq_true h)⟩

variable {f : A → Except Err B} {x : Except Err A}

theorem bind_eq_ok {b : B} :
    x.bind f = .ok b ↔ ∃ a, x = .ok a ∧ f a = .ok b := by
  cases x with
  | error | ok => simp [Except.bind]

theorem map_eq_ok {f : A → B} {b : B} :
    x.map f = .ok b ↔ ∃ a, x = .ok a ∧ f a = b := by
  cases x with
  | error | ok => simp [Except.map]

theorem mapE_eq_ok : ∀ {l : List A} {bs : List B},
    mapE f l = .ok bs ↔ List.Forall₂ (fun a b => f a = .ok b) l bs := by
  intro l
  induction l with
  | nil => intro bs; simp [mapE, eq_comm]
  | cons a l ih =>
    intro bs
    rw [forall₂_cons_left_iff]
    simp only [mapE, ← ih]
    cases f a with
    | error => simp
    | ok => cases mapE f l <;> simp [eq_comm]

/-! ### The tenant's clause -/

/-- `column = tenant`. -/
def tenantWhere {Q : Type} (column : Column) (tenant : String) : Where Q :=
  { typ := "Basic", column := .name column, operator := "=", value := .str tenant }

theorem normalizeOperator_eq (g : Grammar) : normalizeOperator g.getOperators none "=" = .ok "=" := by
  have hl : ∃ r, g.getOperators = "=" :: r := by
    obtain ⟨_ | _ | _ | _, _⟩ := g <;> exact ⟨_, rfl⟩
  obtain ⟨r, hr⟩ := hl
  have hs : lexicallySafeOperator "=" := by decide
  have he : equalFold "=" "=" := by decide
  simp [normalizeOperator, declaredOperator, hr, hs, he]

theorem withOperator_ok (g : Grammar) {b : Builder Q} (h : b.err = none) {op c : String}
    (hn : normalizeOperator g.getOperators none op = .ok c) (add : String → Builder Q) :
    b.withOperator g op add = add c := by
  unfold Builder.withOperator
  simp [hn, h]

theorem addWhere_tenant (g : Grammar) {b : Builder Q} (h : b.err = none)
    (column : Column) (tenant : String) :
    b.addWhere g .and (.name column) "=" (.str tenant)
      = b.pushWhere (tenantWhere column tenant) [.str tenant] := by
  unfold Builder.addWhere
  exact withOperator_ok g h (normalizeOperator_eq g) _

theorem compileWhere_tenant (g : Grammar) (sub : Q → Compiled) (column : Column)
    (tenant : String) :
    ∃ ts, g.compileWhere sub (tenantWhere column tenant)
      = .atom (column.ref?.map (·, .str tenant)) ts := by
  have ht : whereType "Basic" false = (.basic, false) := by decide
  refine ⟨g.basicToks (g.wrap (.name column)) "=" (.str tenant), ?_⟩
  simp [Grammar.compileWhere, tenantWhere, ht, Grammar.equality?, Val.isExpression]

/-! ### Joined tables -/

/-- The tenant's clauses of joined tables, by the tables' names. -/
def joinTenants {Q : Type} (tenant : String) (labels : List String) : List (Where Q) :=
  labels.map fun l => tenantWhere (.of l tenantColumn) tenant

/-- A builder with the tenant's clauses of some joined tables behind its own. -/
def withTenants (b : Builder Tree) (tenant : String) (labels : List String) : Builder Tree :=
  { b with
    wheres := b.wheres ++ joinTenants tenant labels
    bindings := b.bindings.add .where (labels.map fun _ => .str tenant) }

theorem withTenants_nil (b : Builder Tree) (tenant : String) : withTenants b tenant [] = b := by
  have hb : b.bindings.add .where [] = b.bindings := by
    funext s
    simp only [Bindings.add, Bindings.set, append_nil]
    split
    · next hs => rw [hs]
    · rfl
  simp [withTenants, joinTenants, hb]

theorem withTenants_snoc (b : Builder Tree) (tenant : String) (ls : List String) (l : String) :
    (withTenants b tenant ls).pushWhere (tenantWhere (.of l tenantColumn) tenant) [.str tenant]
      = withTenants b tenant (ls ++ [l]) := by
  have hb : ∀ (bs : Bindings) (us vs : List Val),
      (bs.add .where us).add .where vs = bs.add .where (us ++ vs) := by
    intro bs us vs
    funext s
    simp only [Bindings.add, Bindings.set]
    split <;> simp
  simp [withTenants, joinTenants, Builder.pushWhere, hb]

variable {column : Column}

theorem hasFilterOn_append (ws : List (Where Tree))
    (h : hasFilterOn b column) : hasFilterOn { b with wheres := b.wheres ++ ws } column := by
  simp only [hasFilterOn, any_append] at h ⊢
  rw [h, Bool.true_or]

theorem hasFilterOn_withTenants {ls : List String} (h : hasFilterOn b column) :
    hasFilterOn (withTenants b tenant ls) column :=
  hasFilterOn_append (joinTenants tenant ls) h

/-- One join adds at most one clause, for a table without one, and leaves its table filtered. -/
theorem scopeJoin_eq (g : Grammar) (h : b.err = none) (tenant : String)
    (ls : List String) (j : JoinClause Tree) :
    ∃ new, scopeJoin g tenant (withTenants b tenant ls) j = withTenants b tenant (ls ++ new)
      ∧ (∀ l ∈ new, hasFilterOn b (.of l tenantColumn) = false)
      ∧ ∀ l, j.tableName = some l →
        hasFilterOn (withTenants b tenant (ls ++ new)) (.of l tenantColumn) := by
  cases hj : j.tableName with
  | none => exact ⟨[], by simp [scopeJoin, hj], by simp, by simp⟩
  | some l =>
    simp only [scopeJoin, hj]
    by_cases hf : hasFilterOn (withTenants b tenant ls) (.of l tenantColumn)
    · refine ⟨[], by simp [hf], by simp, fun l' hl => ?_⟩
      cases hl
      simpa using hf
    · have hnew : hasFilterOn b (.of l tenantColumn) = false := by
        by_contra hb
        exact hf (hasFilterOn_withTenants (by simpa using hb))
      refine ⟨[l], ?_, by simpa using hnew, fun l' hl => ?_⟩
      · rw [if_neg hf, addWhere_tenant g (by exact h), withTenants_snoc]
      · cases hl
        simp [hasFilterOn, filtersColumn, withTenants, joinTenants, tenantWhere]

theorem foldl_scopeJoin (g : Grammar) (h : b.err = none) (tenant : String) :
    ∀ (js : List (JoinClause Tree)) (ls : List String), ∃ new,
      js.foldl (scopeJoin g tenant) (withTenants b tenant ls) = withTenants b tenant (ls ++ new)
      ∧ (∀ l ∈ new, hasFilterOn b (.of l tenantColumn) = false)
      ∧ ∀ j ∈ js, ∀ l, j.tableName = some l →
        hasFilterOn (withTenants b tenant (ls ++ new)) (.of l tenantColumn) := by
  intro js
  induction js with
  | nil => intro ls; exact ⟨[], by simp, by simp, by simp⟩
  | cons j _ ih =>
    intro ls
    obtain ⟨n₁, he, hn₁, hf₁⟩ := scopeJoin_eq g h tenant ls j
    obtain ⟨n₂, hfold, hn₂, hf₂⟩ := ih (ls ++ n₁)
    refine ⟨n₁ ++ n₂, ?_, ?_, ?_⟩
    · rw [foldl_cons, he, hfold, append_assoc]
    · exact forall_mem_append.mpr ⟨hn₁, hn₂⟩
    · intro k hk l hl
      rw [← append_assoc]
      rcases mem_cons.mp hk with rfl | hk
      · have := hasFilterOn_append (joinTenants tenant n₂) (hf₁ l hl)
        simpa [hasFilterOn, withTenants, joinTenants] using this
      · exact hf₂ k hk l hl

/-! ### Recorded subqueries -/

/-- The new text of every record put in its clause. -/
def placeAll {Q : Type} (b : Builder Tree) (l : List (PendingSub Q × Sql.Query Val)) :
    Builder Tree :=
  l.foldl (fun b p => placeSub b p.1 p.2) b

/-- `q` is the text of the record `p` under the tenant. -/
def Resolves (g : Grammar) (p : PendingSub (Tree × Scoping)) (q : Sql.Query Val) : Prop :=
  ∃ s, p.query.2.statement = .ok s ∧ validate g s = .ok () ∧ q = (g.compile s).query

theorem toSql_eq_ok {s : Tree} {t : Sql.Query Val × List Val} :
    toSql g s = .ok t ↔ validate g s = .ok ()
      ∧ t = ((g.compile s).query, (g.compileEffect s).builder.bindings.all) := by
  rw [toSql, map_eq_ok]
  constructor
  · rintro ⟨⟨⟩, hv, rfl⟩; exact ⟨hv, rfl⟩
  · rintro ⟨hv, rfl⟩; exact ⟨(), hv, rfl⟩

theorem placeSub_bindings (b : Builder Tree) (p : PendingSub Q) (q : Sql.Query Val)
    (bs : Bindings) : placeSub { b with bindings := bs } p q = { placeSub b p q with bindings := bs } := by
  cases h : p.kind <;> simp [placeSub, h]

theorem placeAll_bindings (l : List (PendingSub Q × Sql.Query Val)) :
    ∀ (b : Builder Tree) (bs : Bindings),
      placeAll { b with bindings := bs } l = { placeAll b l with bindings := bs } := by
  induction l with
  | nil => intro b bs; rfl
  | cons p l ih => intro b bs; simp only [placeAll, foldl_cons, placeSub_bindings] at ih ⊢; exact ih _ bs

theorem foldE_scopeSub : ∀ {ps : List (PendingSub (Tree × Scoping))}
    {st st' : Builder Tree × (Segment → Int)}, foldE (scopeSub g) st ps = .ok st' →
    ∃ qs, List.Forall₂ (Resolves g) ps qs
      ∧ ∃ bs, st'.1 = { placeAll st.1 (ps.zip qs) with bindings := bs } := by
  intro ps
  induction ps with
  | nil => intro st st' h; cases h; exact ⟨[], .nil, st.1.bindings, rfl⟩
  | cons p _ ih =>
    intro st st' h
    rw [foldE, bind_eq_ok] at h
    obtain ⟨_, h₁, h⟩ := h
    rw [scopeSub, bind_eq_ok] at h₁
    obtain ⟨s, hs, h₁⟩ := h₁
    rw [bind_eq_ok] at h₁
    obtain ⟨t, ht, h₁⟩ := h₁
    obtain ⟨hv, rfl⟩ := toSql_eq_ok.mp ht
    obtain ⟨qs, hqs, bs, hst⟩ := ih h
    refine ⟨(g.compile s).query :: qs, .cons ⟨s, hs, hv, rfl⟩ hqs, bs, ?_⟩
    dsimp only at h₁
    split at h₁
    · cases h₁
    · cases h₁
      rw [hst, placeAll_bindings]
      rfl

theorem placeSub_frame (b : Builder Tree) (p : PendingSub Q) (q : Sql.Query Val) :
    placeSub b p q = { b with
      table := (placeSub b p q).table
      columns := (placeSub b p q).columns
      joins := (placeSub b p q).joins } := by
  cases h : p.kind <;> simp [placeSub, h]

/-- Putting texts in their clauses changes the table, the columns and the joins only. -/
theorem placeAll_frame (l : List (PendingSub Q × Sql.Query Val)) :
    ∀ b : Builder Tree, placeAll b l = { b with
      table := (placeAll b l).table
      columns := (placeAll b l).columns
      joins := (placeAll b l).joins } := by
  induction l with
  | nil => intro b; rfl
  | cons p l ih =>
    intro b
    have h := ih (placeSub b p.1 p.2)
    rw [show placeAll b (p :: l) = placeAll (placeSub b p.1 p.2) l from rfl]
    rw [placeSub_frame] at h ⊢
    exact h

/-- A builder with other clauses, union members and values. -/
def clad (b : Builder Tree) (ws : List (Where Tree)) (us : List (Union Tree)) (bs : Bindings) :
    Builder Tree :=
  { b with wheres := ws, unions := us, bindings := bs }

theorem clad_clad (b : Builder Tree) (ws ws' : List (Where Tree)) (us us' : List (Union Tree))
    (bs bs' : Bindings) : clad (clad b ws us bs) ws' us' bs' = clad b ws' us' bs' := rfl

/-- What a builder is clad in makes no difference to placing. -/
theorem placeAll_clad (ws : List (Where Tree)) (us : List (Union Tree)) (bs : Bindings)
    (l : List (PendingSub Q × Sql.Query Val)) :
    ∀ b : Builder Tree, placeAll (clad b ws us bs) l = clad (placeAll b l) ws us bs := by
  induction l with
  | nil => intro b; rfl
  | cons p l ih =>
    intro b
    have hone : placeSub (clad b ws us bs) p.1 p.2 = clad (placeSub b p.1 p.2) ws us bs := by
      cases h : p.1.kind <;> simp [placeSub, h, clad]
    rw [show placeAll (clad b ws us bs) (p :: l)
      = placeAll (placeSub (clad b ws us bs) p.1 p.2) l from rfl, hone, ih]
    rfl

/-! ### The passes together -/

/-- One union member under the tenant. -/
def ScopesUnion (u : Union (Tree × Scoping)) (u' : Union Tree) : Prop :=
  u.query.2.statement = .ok u'.query ∧ u'.all = u.all

variable {s : Builder Tree}

/-- **What scoping makes of a builder.**  Its clauses and union members are the scoped ones,
its subqueries are in their places, and every joined table has the tenant's clause. -/
theorem scopeNested_ok {w : Builder (Tree × Scoping)} (herr : w.err = none) (h : scopeNested g tenant w = .ok s) :
    ∃ us ws qs ls bs,
      List.Forall₂ ScopesUnion w.unions us
      ∧ List.Forall₂ (fun w w' => scopeWhere g w = .ok w') w.wheres ws
      ∧ List.Forall₂ (Resolves g) w.subqueries qs
      ∧ s = dropSubqueries (clad (placeAll (w.map Prod.fst) (w.subqueries.zip qs))
          (ws ++ joinTenants tenant ls) us bs)
      ∧ (∀ l ∈ ls, ws.any (filtersColumn (.of l tenantColumn)) = false)
      ∧ ∀ j ∈ s.joins, ∀ l, j.tableName = some l → hasFilterOn s (.of l tenantColumn) := by
  rw [scopeNested, bind_eq_ok] at h
  obtain ⟨us, hus, h⟩ := h
  rw [bind_eq_ok] at h
  obtain ⟨_, hs₁, h⟩ := h
  rw [map_eq_ok] at h
  obtain ⟨_, hs₂, rfl⟩ := h
  rw [scopeSubqueries, map_eq_ok] at hs₁
  obtain ⟨ws, hws, rfl⟩ := hs₁
  have hus : List.Forall₂ ScopesUnion w.unions us := (mapE_eq_ok.mp hus).imp fun u u' hu => by
    obtain ⟨t, ht, rfl⟩ := map_eq_ok.mp hu
    exact ⟨ht, rfl⟩
  rw [scopeSubqueryClauses, map_eq_ok] at hs₂
  obtain ⟨st, hst, rfl⟩ := hs₂
  obtain ⟨qs, hqs, bs, hst⟩ := foldE_scopeSub hst
  have hbase : st.1 = clad (placeAll (w.map Prod.fst) (w.subqueries.zip qs)) ws us bs := by
    have hclad : ∃ bs₀, withUnions (withWheres (w.map Prod.fst) (w.wheres.any rewritesClause) ws) us
        = clad (w.map Prod.fst) ws us bs₀ := ⟨_, rfl⟩
    obtain ⟨bs₀, hclad⟩ := hclad
    rw [hst, hclad, placeAll_clad]
    rfl
  have herr' : st.1.err = none := by
    rw [hbase, placeAll_frame]
    exact herr
  obtain ⟨ls, hfold, hls, hfil⟩ := foldl_scopeJoin g (b := dropSubqueries st.1) herr' tenant
    (dropSubqueries st.1).joins []
  rw [withTenants_nil, nil_append] at hfold
  refine ⟨us, ws, qs, ls, bs.add .where (ls.map fun _ => .str tenant), hus, mapE_eq_ok.mp hws, hqs,
    ?_, ?_, ?_⟩
  · rw [hfold, hbase]
    rfl
  · have hwheres : (dropSubqueries st.1).wheres = ws := by rw [hbase, placeAll_frame]; rfl
    rw [← hwheres]
    exact hls
  · rw [hfold]; exact hfil

/-! ### A builder as a statement and as a group -/

/-- The caller's clauses as one group. -/
def nestedWhere {Q : Type} (inner : Q) : Where Q := { typ := "Nested", query := some inner }

/-- The values of the clauses once the tenant's is in front. -/
def wrapBindings {Q : Type} (b : Builder Q) (tenant : String) : Bindings :=
  if b.wheres.isEmpty then b.bindings.add .where [.str tenant]
  else ((b.bindings.set .where []).add .where [.str tenant]).add .where (b.bindings .where)

theorem wrapBindings_map (f : A → B) (b : Builder A) (tenant : String) :
    wrapBindings (b.map f) tenant = wrapBindings b tenant := by
  simp only [wrapBindings, Builder.map, isEmpty_map]

theorem wrapTenant_eq (g : Grammar) {b : Builder Q} (h : b.err = none) (tenant : String)
    (inner : Q) :
    b.wrapTenant g tenant inner = { b with
      wheres := tenantWhere (b.qualify tenantColumn) tenant
        :: if b.wheres.isEmpty then [] else [nestedWhere inner]
      bindings := wrapBindings b tenant } := by
  unfold Builder.wrapTenant wrapBindings
  by_cases hw : b.wheres.isEmpty
  · simp only [hw, if_true]
    rw [addWhere_tenant g h, Builder.pushWhere, isEmpty_iff.mp hw, nil_append]
  · simp only [hw, Bool.false_eq_true, if_false]
    rw [addWhere_tenant g (by exact h)]
    rfl

theorem wrapTenant_err (g : Grammar) (b : Builder Q) (tenant : String) (inner : Q) :
    (b.wrapTenant g tenant inner).err = b.err := by
  have hadd : ∀ b : Builder Q, ∀ c, (b.addWhere g .and (.name c) "=" (.str tenant)).err = b.err := by
    intro b c
    unfold Builder.addWhere Builder.withOperator
    rw [normalizeOperator_eq]
    dsimp only
    split <;> rfl
  unfold Builder.wrapTenant
  dsimp only
  split
  · exact hadd _ _
  · exact hadd { b with wheres := [], bindings := b.bindings.set .where [] } _

/-- Everything a builder refers to, with what scoping makes of it. -/
def decorate (g : Grammar) (tenant : String) (t : Tree) : Tree × Scoping := (t, scoping g tenant t)

theorem scoping_node (g : Grammar) (tenant : String) (b : Builder Tree) :
    scoping g tenant (.node b) = scopingStep g tenant (b.map (decorate g tenant)) := by
  rw [scoping, Tree.para_node]
  rfl

@[simp] theorem map_fst_decorate (g : Grammar) (tenant : String) (b : Builder Tree) :
    (b.map (decorate g tenant)).map Prod.fst = b := by
  rw [Builder.map_map]
  exact b.map_eq_self fun _ => rfl

/-- What `scopeSubqueries` makes of one clause. -/
inductive ScopesWhere (g : Grammar) (tenant : String) : Where Tree → Where Tree → Prop
  | plain {w : Where Tree} (hq : w.query = none) : ScopesWhere g tenant w w
  | whole {w : Where Tree} {q s : Tree} (hq : w.query = some q)
    (ht : w.typ = "Exists" ∨ w.typ = "In") (hs : (scoping g tenant q).statement = .ok s) :
    ScopesWhere g tenant w { w with query := some s }
  | compared {w : Where Tree} {q s : Tree} (hq : w.query = some q) (ht : w.typ = "Basic")
    (hs : (scoping g tenant q).statement = .ok s) (hv : validate g s = .ok ()) :
    ScopesWhere g tenant w
      { w with query := some (g.compileEffect s), column := .sub false (g.compile s).query none }
  | group {w : Where Tree} {q s : Tree} (hq : w.query = some q) (ht : w.typ = "Nested")
    (hs : (scoping g tenant q).group = .ok s) : ScopesWhere g tenant w { w with query := some s }
  | other {w : Where Tree} {q : Tree} (hq : w.query = some q)
    (ht : w.typ ∉ ["Exists", "In", "Basic", "Nested"]) : ScopesWhere g tenant w w

theorem scopesWhere_of_ok {w w' : Where Tree}
    (h : scopeWhere g (w.map (decorate g tenant)) = .ok w') : ScopesWhere g tenant w w' := by
  obtain ⟨_, c, _, f, _, o, v, _, _, _, n, _, q, _⟩ := w
  cases q with
  | none => cases h; exact .plain rfl
  | some q =>
    simp only [scopeWhere, Where.map, Option.map_some, decorate] at h
    split at h
    · obtain ⟨s, hs, rfl⟩ := map_eq_ok.mp h
      exact .whole (q := q) rfl (.inl rfl) hs
    · obtain ⟨s, hs, rfl⟩ := map_eq_ok.mp h
      exact .whole (q := q) rfl (.inr rfl) hs
    · obtain ⟨s, hs, h⟩ := bind_eq_ok.mp h
      obtain ⟨t, ht, rfl⟩ := map_eq_ok.mp h
      obtain ⟨hv, rfl⟩ := toSql_eq_ok.mp ht
      exact .compared (q := q) rfl rfl hs hv
    · obtain ⟨s, hs, rfl⟩ := map_eq_ok.mp h
      exact .group (q := q) rfl rfl hs
    · next h₁ h₂ h₃ h₄ =>
      cases h
      exact .other (q := q) rfl (by simpa using ⟨h₁, h₂, h₃, h₄⟩)

theorem placeAll_map (f : A → B) : ∀ (ps : List (PendingSub A))
    (qs : List (Sql.Query Val)) (b : Builder Tree),
    placeAll b ((ps.map (PendingSub.map f)).zip qs) = placeAll b (ps.zip qs) := by
  intro ps
  induction ps with
  | nil => intro qs b; rfl
  | cons p _ ih =>
    intro qs b
    cases qs with
    | nil => rfl
    | cons q qs => exact ih qs _

/-- **The clauses of a group** are scoped one by one. -/
theorem group_ok {s : Tree}
    (h : (scoping g tenant (.node b)).group = .ok s) :
    ∃ ws bs, List.Forall₂ (ScopesWhere g tenant) b.wheres ws
      ∧ s = .node { b with wheres := ws, bindings := bs } := by
  rw [scoping_node] at h
  obtain ⟨_, h₁, rfl⟩ := map_eq_ok.mp h
  obtain ⟨ws, hws, rfl⟩ := map_eq_ok.mp h₁
  refine ⟨ws, _, ?_, by rw [withWheres, map_fst_decorate]⟩
  have := mapE_eq_ok.mp hws
  rw [show (b.map (decorate g tenant)).wheres = b.wheres.map (Where.map (decorate g tenant)) from rfl,
    forall₂_map_left_iff] at this
  exact this.imp fun _ _ => scopesWhere_of_ok

/-- The text of a recorded subquery under the tenant. -/
def ResolvesTo (g : Grammar) (tenant : String) (p : PendingSub Tree) (q : Sql.Query Val) : Prop :=
  ∃ s, (scoping g tenant p.query).statement = .ok s ∧ validate g s = .ok () ∧ q = (g.compile s).query

/-- **What a statement is compiled from**: the tenant's clause, the caller's clauses as one
scoped group, the tenant's clauses of the joined tables, scoped union members, and every
recorded subquery in its place. -/
structure ScopedAs (g : Grammar) (tenant : String) (b s : Builder Tree) (us : List (Union Tree))
    (gs : List (Where Tree)) (qs : List (Sql.Query Val)) (ls : List String) (bs : Bindings) : Prop where
  unions : List.Forall₂
    (fun u u' => (scoping g tenant u.query).statement = .ok u'.query ∧ u'.all = u.all) b.unions us
  group : b.wheres = [] ∧ gs = [] ∨
    ∃ t, (scoping g tenant (.node b)).group = .ok t ∧ gs = [nestedWhere t]
  subqueries : List.Forall₂ (ResolvesTo g tenant) b.subqueries qs
  eq : s = dropSubqueries (clad (placeAll b (b.subqueries.zip qs))
    (tenantWhere (b.qualify tenantColumn) tenant :: gs ++ joinTenants tenant ls) us bs)
  filtered : ∀ j ∈ s.joins, ∀ l, j.tableName = some l → hasFilterOn s (.of l tenantColumn) = true

theorem scopedAs_of_ok (herr : b.err = none)
    (h : scopeNested g tenant ((b.map (decorate g tenant)).wrapTenant g tenant
      (innerGroup g (b.map (decorate g tenant)))) = .ok s) :
    ∃ us gs qs ls bs, ScopedAs g tenant b s us gs qs ls bs := by
  rw [wrapTenant_eq g (by exact herr)] at h
  obtain ⟨us, ws, qs, ls, bs, hus, hws, hqs, hs, -, hfil⟩ := scopeNested_ok (by exact herr) h
  -- The clauses in front of the joined tables' are the tenant's and perhaps the group.
  have hgs : ∃ gs, ws = tenantWhere (b.qualify tenantColumn) tenant :: gs
      ∧ (b.wheres = [] ∧ gs = [] ∨
        ∃ t, (scoping g tenant (.node b)).group = .ok t ∧ gs = [nestedWhere t]) := by
    obtain ⟨_, gs, h₁, hgs, rfl⟩ := forall₂_cons_left_iff.mp hws
    cases h₁
    refine ⟨gs, rfl, ?_⟩
    by_cases he : b.wheres = []
    · rw [if_pos (by simp [Builder.map, he])] at hgs
      cases hgs
      exact .inl ⟨he, rfl⟩
    · rw [if_neg (by simp [Builder.map, he])] at hgs
      obtain ⟨_, _, h₂, ⟨⟩, rfl⟩ := forall₂_cons_left_iff.mp hgs
      obtain ⟨t, ht, rfl⟩ := map_eq_ok.mp h₂
      exact .inr ⟨t, by rw [scoping_node]; exact ht, rfl⟩
  obtain ⟨gs, rfl, hgs⟩ := hgs
  refine ⟨us, gs, qs, ls, bs, forall₂_map_left_iff.mp hus, hgs,
    forall₂_map_left_iff (f := PendingSub.map (decorate g tenant)).mp hqs, ?_, hfil⟩
  -- Placing sees neither the tenant's clause nor what the references were paired with.
  have hbase : ∀ ws bs', ({ b.map (decorate g tenant) with wheres := ws, bindings := bs' } :
      Builder (Tree × Scoping)).map Prod.fst = clad b (ws.map (Where.map Prod.fst)) b.unions bs' := by
    intro ws bs'
    exact congrArg (fun x : Builder Tree => clad x (ws.map (Where.map Prod.fst)) x.unions bs')
      (map_fst_decorate g tenant b)
  rw [hs, hbase, placeAll_clad, clad_clad]
  exact congrArg (fun x => dropSubqueries (clad x _ us bs))
    (placeAll_map (decorate g tenant) b.subqueries qs b)

/-- A scoped statement is a valid builder of that shape. -/
theorem statement_ok {t : Tree}
    (h : (scoping g tenant (.node b)).statement = .ok t) :
    b.err = none ∧ ∃ s us gs qs ls bs, t = .node s ∧ validate g (.node s) = .ok ()
      ∧ ScopedAs g tenant b s us gs qs ls bs := by
  rw [scoping_node] at h
  obtain ⟨⟨⟩, hv, h⟩ := bind_eq_ok.mp h
  obtain ⟨s, hs, h⟩ := bind_eq_ok.mp h
  obtain ⟨⟨⟩, hv', rfl⟩ := map_eq_ok.mp h
  have herr : b.err = none := by
    have := (validate_children hv).1
    rwa [show ∀ w : Builder (Tree × Scoping), (w.map Prod.fst).err = w.err from fun _ => rfl,
      wrapTenant_err] at this
  obtain ⟨us, gs, qs, ls, bs, hsc⟩ := scopedAs_of_ok herr hs
  exact ⟨herr, s, us, gs, qs, ls, bs, rfl, hv', hsc⟩

end Hesape.Query
