import Hesape.Query.Structured
import Hesape.Sql.Sent

/-!
# Which reads stay inside their tenant

A statement stays inside the tenant when every table it reads, at any depth, carries its
own `label.tenant_id = tenant` that no `or` stands beside: the statement is `Guarded`, and
`Sql.Query.run_agree` turns that into noninterference.

Scoping puts that clause on every select it goes through: the statement, the members of its
unions, the subqueries of its clauses and of its select list, from and joins.  The one thing
it does not go into is the condition of a join.  A subquery or a join written there is
compiled as the caller wrote it, and reads every tenant's rows.  `guarded_of_bareOns` says that
this is the whole story: **where no join condition holds a subquery or a join, the statement is
guarded**.
-/

namespace Hesape.Query

open Sql (Cond Source Item FiltersOn ClausesGuarded ItemsGuarded JoinsGuarded OptGuarded QueriesGuarded)
open Hesape.Query.Tree (Everywhere)
open List

/-! ### Recorded subqueries and their places -/

/-- The record is for this place; a builder has one from. -/
def PendingSub.at {Q : Type} (p : PendingSub Q) (kind : PendingKind) (index : Nat) : Bool :=
  p.kind = kind && (kind = .from || p.index = index)

/-- The subquery standing in a place. -/
def slotQuery (b : Builder Tree) : PendingKind → Nat → Option (Sql.Query Val)
  | .from, _ => match b.table with
    | some (.sub q _) => some q
    | _ => none
  | .select, i => match (b.columns.getD [])[i]? with
    | some (.sub _ q _) => some q
    | _ => none
  | .join, i => match b.joins[i]? with
    | some j => match j.table with
      | .sub q _ => some q
      | _ => none
    | none => none

variable {Q : Type} {b : Builder Tree} {p : PendingSub Q}

/-- What stands in a place once a record is placed: its text, or what stood there. -/
theorem slotQuery_placeSub {q q' : Sql.Query Val} {kind : PendingKind} {i : Nat}
    (h : slotQuery (placeSub b p q) kind i = some q') :
    q' = q ∨ p.at kind i = false ∧ slotQuery b kind i = some q' := by
  cases hk : p.kind with
  | «from» =>
    cases kind with
    | «from» =>
      simp only [slotQuery, placeSub, hk, Option.some.injEq] at h
      exact .inl h.symm
    | select | join => exact .inr ⟨by simp [PendingSub.at, hk], by simpa [slotQuery, placeSub, hk] using h⟩
  | select =>
    cases kind with
    | «from» | join => exact .inr ⟨by simp [PendingSub.at, hk], by simpa [slotQuery, placeSub, hk] using h⟩
    | select =>
      by_cases hi : p.index = i
      · subst hi
        cases hc : b.columns with
        | none => simp [slotQuery, placeSub, hk, hc] at h
        | some =>
          simp only [slotQuery, placeSub, hk, hc, Option.map_some, Option.getD_some, getElem?_set,
            if_true] at h
          split at h
          · next hs =>
            split at hs
            · cases hs; cases h; exact .inl rfl
            · cases hs
          · cases h
      · refine .inr ⟨by simp [PendingSub.at, hk, hi], ?_⟩
        cases hc : b.columns with
        | none => simp [slotQuery, placeSub, hk, hc] at h
        | some => simpa [slotQuery, placeSub, hk, hc, hi] using h
  | join =>
    cases kind with
    | «from» | select => exact .inr ⟨by simp [PendingSub.at, hk], by simpa [slotQuery, placeSub, hk] using h⟩
    | join =>
      by_cases hi : p.index = i
      · subst hi
        cases hj : b.joins[p.index]? with
        | none => simp [slotQuery, placeSub, hk, hj] at h
        | some => exact .inl (by simpa [slotQuery, placeSub, hk, hj, eq_comm] using h)
      · refine .inr ⟨by simp [PendingSub.at, hk, hi], ?_⟩
        simpa [slotQuery, placeSub, hk, hi, getElem?_modify] using h

/-- **A place holds the text of a record**, or what it held before when no record is for it. -/
theorem slotQuery_placeAll {R : PendingSub Q → Sql.Query Val → Prop}
    {ps : List (PendingSub Q)} {qs : List (Sql.Query Val)} (h : List.Forall₂ R ps qs)
    (kind : PendingKind) (i : Nat) {q' : Sql.Query Val} : ∀ b : Builder Tree,
    slotQuery (placeAll b (ps.zip qs)) kind i = some q' →
    (∃ p ∈ ps, R p q') ∨ (∀ p ∈ ps, p.at kind i = false) ∧ slotQuery b kind i = some q' := by
  induction h with
  | nil => intro b hs; exact .inr ⟨by simp, hs⟩
  | @cons p q ps qs hpq _ ih =>
    intro b hs
    rcases ih (placeSub b p q) hs with ⟨p', hm, hR⟩ | ⟨hnone, hs⟩
    · exact .inl ⟨p', mem_cons_of_mem _ hm, hR⟩
    · rcases slotQuery_placeSub hs with rfl | ⟨hat, hs⟩
      · exact .inl ⟨p, mem_cons_self, hpq⟩
      · exact .inr ⟨forall_mem_cons.mpr ⟨hat, hnone⟩, hs⟩

/-- Placing leaves a table as it was or puts a subquery in its place. -/
theorem placeAll_table {Q : Type} : ∀ (l : List (PendingSub Q × Sql.Query Val)) (b : Builder Tree),
    (placeAll b l).table = b.table ∨ ∃ q as, (placeAll b l).table = some (.sub q as) := by
  intro l
  induction l with
  | nil => intro b; exact .inl rfl
  | cons p l ih =>
    intro b
    rcases ih (placeSub b p.1 p.2) with h | h
    · cases hk : p.1.kind with
      | select | join => exact .inl (h.trans (by simp [placeSub, hk]))
      | «from» => exact .inr ⟨p.2, p.1.as, h.trans (by simp [placeSub, hk])⟩
    · exact .inr h

/-- It does the same to a join's table, and leaves the rest of the join alone. -/
theorem placeAll_joins {Q : Type} : ∀ (l : List (PendingSub Q × Sql.Query Val)) (b : Builder Tree),
    ∀ j' ∈ (placeAll b l).joins, ∃ j ∈ b.joins, ∃ t, j' = { j with table := t }
      ∧ (t = j.table ∨ t.isSub) := by
  intro l
  induction l with
  | nil => intro b j hj; exact ⟨j, hj, j.table, rfl, .inl rfl⟩
  | cons p l ih =>
    intro b j' hj'
    obtain ⟨j, hj, t, rfl, ht⟩ := ih (placeSub b p.1 p.2) j' hj'
    cases hk : p.1.kind with
    | select | «from» => exact ⟨j, by simpa [placeSub, hk] using hj, t, rfl, ht⟩
    | join =>
      obtain ⟨i, hi⟩ := mem_iff_getElem?.mp hj
      simp only [placeSub, hk, getElem?_modify] at hi
      obtain ⟨j₀, hj₀, rfl⟩ := Option.map_eq_some_iff.mp hi
      refine ⟨j₀, mem_of_getElem? hj₀, t, by split <;> rfl, ?_⟩
      split at ht
      · exact .inr (ht.elim (fun h => by rw [h]; rfl) id)
      · exact ht

/-! ### Guarded selects -/

section Select

variable {g : Grammar} {col : String} {v : Val}

theorem withTimeout_guarded (timeout : Option Nat) (q : Sql.Query Val) :
    (g.withTimeout timeout q).Guarded col v ↔ q.Guarded col v := by
  unfold Grammar.withTimeout
  split
  · rfl
  · split
    · dsimp only
      split <;> simp [Sql.Query.Guarded, QueriesGuarded]
    · rfl

/-- A select is guarded when its own part is and its union members are. -/
theorem compileSelect_guarded {s : Builder Tree} (hg : s.groupLimit = none)
    (ha : s.aggregate = none) :
    (g.compileSelect g.compile s).Guarded col v
      ↔ (g.selectWith g.compile s (g.selectItems s) []).Guarded col v
        ∧ ∀ u ∈ s.unions, (g.compile u.query).query.Guarded col v := by
  rw [Grammar.compileSelect, ha]
  rw [Grammar.compileUnaggregated, hg, withTimeout_guarded]
  dsimp only [Grammar.compilePlain]
  split
  · next hu =>
    rw [isEmpty_iff.mp hu]
    simp [Grammar.selectWith, Sql.Query.Guarded]
  · rw [Sql.Query.Guarded, Sql.queriesGuarded_iff]
    simp [Grammar.selectWith, Sql.Query.Guarded]

/-- A select list is guarded when its subqueries are. -/
theorem items_guarded {s : Builder Tree} (ha : s.aggregate = none)
    (h : ∀ i q, slotQuery s .select i = some q → q.Guarded col v) :
    ItemsGuarded col v (g.selectItems s) := by
  rw [Sql.itemsGuarded_iff, Grammar.selectItems, ha]
  simp only [forall_mem_map]
  intro c hc
  cases c with
  | name | expr => simp [Grammar.compileItem, Item.Guarded]
  | sub p q as =>
    cases hs : s.columns with
    | none => simp [hs] at hc
    | some =>
      obtain ⟨i, hi⟩ := mem_iff_getElem?.mp hc
      rw [hs, Option.getD_some] at hi
      rw [Grammar.compileItem, Item.Guarded]
      exact h i q (by simp [slotQuery, hs, hi])

theorem source_guarded {t : TableArg} {P : Prop} (hp : t.Placed P)
    (h : ∀ q as, t = .sub q as → q.Guarded col v) : (g.compileSource t).Guarded col v := by
  cases t with
  | table => simp [Grammar.compileSource, Source.Guarded]
  | sub q as => simpa [Grammar.compileSource, Source.Guarded] using h q as rfl
  | expr => exact hp.elim

end Select

/-! ### Clauses -/

section Clauses

variable {g : Grammar} {tenant : String}

variable {Q : Type}

theorem compileWhere_exists (sub : Q → Compiled) {w : Where Q} {q : Q}
    (ht : w.typ = "Exists") (hq : w.query = some q) :
    ∃ pre, g.compileWhere sub w = .sub pre (sub q).query [] := by
  have hk : ∀ n, whereType "Exists" n = (.exists, n) := by intro n; cases n <;> decide
  rw [Grammar.compileWhere, ht, hk]
  simp only [hq]
  exact ⟨_, rfl⟩

theorem compileWhere_nested (sub : Q → Compiled) {w : Where Q} {q : Q}
    (ht : w.typ = "Nested") (hq : w.query = some q) :
    g.compileWhere sub w = .group (sub q).wheres := by
  have hk : ∀ n, whereType "Nested" n = (.nested, n) := by intro n; cases n <;> decide
  rw [Grammar.compileWhere, ht, hk]
  simp only [hq]

theorem compileWhere_compared (sub : Q → Compiled) {w : Where Q} {q : Sql.Query Val}
    (ht : w.typ = "Basic") (hc : w.column = .sub false q none) :
    ∃ post, g.compileWhere sub w = .sub [] q post := by
  have hk : ∀ n, whereType "Basic" n = (.basic, n) := by intro n; cases n <;> decide
  rw [Grammar.compileWhere, ht, hk]
  simp only [hc]
  exact ⟨_, rfl⟩

theorem whereClauses_guarded_iff (ws : List (Where Tree)) :
    ClausesGuarded tenantColumn (.str tenant) (g.whereClauses g.compile ws)
      ↔ ∀ w ∈ ws, (g.compileWhere g.compile w).Guarded tenantColumn (.str tenant) := by
  simp [Sql.clausesGuarded_iff, Grammar.whereClauses]

theorem tenantWhere_guarded (c : Column) :
    (g.compileWhere g.compile (tenantWhere c tenant)).Guarded tenantColumn (.str tenant) := by
  obtain ⟨_, hts⟩ := compileWhere_tenant g g.compile c tenant
  rw [hts, Cond.Guarded]
  trivial

/-- A scoped clause is guarded when the group or the statement in it is. -/
theorem scopesWhere_guarded {w w' : Where Tree} (h : ScopesWhere g tenant w w')
    (plain : w.query = none → w.Plain g)
    (typ : ∀ q, w.query = some q → w.typ = "Nested" ∨ w.typ = "Exists" ∨ w.typ = "Basic")
    (group : ∀ q, w.query = some q → w.typ = "Nested" → ∀ s, (scoping g tenant q).group = .ok s →
      ClausesGuarded tenantColumn (.str tenant) (g.compile s).wheres)
    (statement : ∀ q, w.query = some q → w.typ ≠ "Nested" →
      ∀ s, (scoping g tenant q).statement = .ok s →
      (g.compile s).query.Guarded tenantColumn (.str tenant)) :
    (g.compileWhere g.compile w').Guarded tenantColumn (.str tenant) := by
  cases h with
  | plain hq =>
    obtain ⟨e, _, he⟩ := plain hq
    rw [he, Cond.Guarded]
    trivial
  | @whole q s hq ht hs =>
    have ht : w.typ = "Exists" := by
      rcases ht with ht | ht
      · exact ht
      · rcases typ q hq with h | h | h <;> rw [ht] at h <;> exact absurd h (by decide)
    obtain ⟨_, he⟩ := compileWhere_exists (g := g) g.compile (w := { w with query := some s }) ht rfl
    rw [he, Cond.Guarded]
    exact statement q hq (by rw [ht]; decide) s hs
  | @compared q s hq ht hs =>
    obtain ⟨_, he⟩ := compileWhere_compared (g := g) g.compile (w := { w with
      query := some (g.compileEffect s), column := .sub false (g.compile s).query none }) ht rfl
    rw [he, Cond.Guarded]
    exact statement q hq (by rw [ht]; decide) s hs
  | @group q s hq ht hs =>
    rw [compileWhere_nested (g := g) g.compile (w := { w with query := some s }) ht rfl, Cond.Guarded]
    exact group q hq ht s hs
  | @other q hq ht =>
    rcases typ q hq with h | h | h <;> rw [h] at ht <;> exact absurd ht (by decide)

end Clauses

/-! ### Bare join conditions -/

/-- A join condition of comparisons and groups of them: no subquery and no join of its own. -/
def bareOn : Tree → Bool :=
  Tree.para fun b => b.joins.isEmpty && b.wheres.all fun w =>
    !w.column.isSub && w.query.all fun q => w.typ = "Nested" && q.2

/-- Every join condition of every select is bare. -/
def bareOns : Tree → Bool :=
  Tree.para fun b => b.joins.all (fun j => bareOn j.builder.1) && b.children.all Prod.snd

theorem bareOn_node (b : Builder Tree) : bareOn (.node b) ↔ b.joins = [] ∧ ∀ w ∈ b.wheres,
    w.column.isSub = false ∧ ∀ q, w.query = some q → w.typ = "Nested" ∧ bareOn q := by
  rw [bareOn, Tree.para_node, Bool.and_eq_true, all_eq_true]
  refine and_congr (by simp [Builder.map]) ?_
  simp only [Builder.map, forall_mem_map]
  refine forall₂_congr fun w _ => ?_
  cases hq : w.query <;> simp [Where.map, hq]

theorem bareOns_node (b : Builder Tree) : bareOns (.node b)
    ↔ (∀ j ∈ b.joins, bareOn j.builder) ∧ ∀ t ∈ b.children, bareOns t := by
  rw [bareOns, Tree.para_node, Bool.and_eq_true, all_eq_true, all_eq_true,
    Builder.children_map, forall_mem_map]
  simp only [Builder.map, forall_mem_map]
  rfl

/-- There is nothing in a bare condition to guard. -/
theorem bareOn_guarded {g : Grammar} (tenant : String) (t : Tree) (h : bareOn t) :
    (g.compile t).joins = [] ∧ ClausesGuarded tenantColumn (.str tenant) (g.compile t).wheres := by
  induction t using Tree.ind with
  | node b ih =>
    obtain ⟨hj, hw⟩ := (bareOn_node b).mp h
    refine ⟨by simp [hj, Grammar.compileJoins], ?_⟩
    rw [Grammar.compile_wheres, whereClauses_guarded_iff]
    intro w hm
    obtain ⟨hc, hq⟩ := hw w hm
    cases hwq : w.query with
    | none =>
      obtain ⟨e, _, he⟩ := plain_of_no_sub (g := g) (fun _ => hwq) hc
      rw [he, Cond.Guarded]
      trivial
    | some q =>
      obtain ⟨ht, hb⟩ := hq q hwq
      rw [compileWhere_nested g.compile ht hwq, Cond.Guarded]
      exact (ih q (Builder.where_mem_children hm hwq) hb).2

/-! ### The statement -/

section Statement

variable {g : Grammar} {tenant : String} {b s : Builder Tree} {us : List (Union Tree)}
  {gs : List (Where Tree)} {qs : List (Sql.Query Val)} {ls : List String} {bs : Bindings}

theorem filtersOn_of_mem {l : String} {c : Column} (hc : c.ref? = some ⟨some l, tenantColumn⟩)
    (hw : tenantWhere c tenant ∈ s.wheres) :
    FiltersOn tenantColumn (.str tenant) l (g.whereClauses g.compile s.wheres) := by
  obtain ⟨ts, hts⟩ := compileWhere_tenant g g.compile c tenant
  refine ⟨.and, ts, rfl, mem_map.mpr ⟨_, hw, ?_⟩⟩
  rw [hts, hc]
  rfl

theorem mem_compileJoin_tableLabels {j : JoinClause Tree} {l : String}
    (h : l ∈ (g.compileJoin g.compile j).tableLabels) : l ∈ (g.compileSource j.table).tableLabels
      ∨ l ∈ Sql.joinsTableLabels (g.compile j.builder).joins := by
  unfold Grammar.compileJoin at h
  split at h
  · split at h
    · exact mem_append.mp h
    · exact absurd h not_mem_nil
  · exact mem_append.mp h

theorem mem_source_tableLabels {t : TableArg} {l : String} (h : l ∈ (g.compileSource t).tableLabels) :
    ∃ n, t = .table n ∧ n.label = l := by
  cases t with
  | table n => exact ⟨n, rfl, by simpa [Grammar.compileSource, Source.tableLabels, eq_comm] using h⟩
  | expr | sub => simp [Grammar.compileSource, Source.tableLabels] at h

/-- A place without a record holds no subquery. -/
theorem slotQuery_unrecorded (hp : Placed b) {kind : PendingKind} {i : Nat}
    (h : ∀ p ∈ b.subqueries, p.at kind i = false) : slotQuery b kind i = none := by
  have hno : ∀ p ∈ b.subqueries, p.kind = kind → (kind = .from ∨ p.index = i) → False := by
    intro p hm hk hi
    have := h p hm
    rcases hi with hi | hi <;> simp [PendingSub.at, hk, hi] at this
  cases kind with
  | «from» =>
    cases ht : b.table with
    | none => simp [slotQuery, ht]
    | some t =>
      cases t with
      | table | expr => simp [slotQuery, ht]
      | sub =>
        obtain ⟨p, hm, hk⟩ := hp.table _ ht
        exact (hno p hm hk (.inl rfl)).elim
  | select =>
    cases hc : (b.columns.getD [])[i]? with
    | none => simp [slotQuery, hc]
    | some c =>
      cases c with
      | name | expr => simp [slotQuery, hc]
      | sub =>
        obtain ⟨p, hm, hk, hi⟩ := hp.column i _ hc rfl
        exact (hno p hm hk (.inr hi)).elim
  | join =>
    cases hj : b.joins[i]? with
    | none => simp [slotQuery, hj]
    | some j =>
      cases ht : j.table with
      | table | expr => simp [slotQuery, hj, ht]
      | sub =>
        obtain ⟨p, hm, hk, hi⟩ : ∃ p ∈ b.subqueries, p.kind = .join ∧ p.index = i := by
          have := hp.join i j hj
          rwa [ht] at this
        exact (hno p hm hk (.inr hi)).elim

variable (h : ScopedAs g tenant b s us gs qs ls bs)
include h

theorem scopedAs_wheres :
    s.wheres = tenantWhere (b.qualify tenantColumn) tenant :: gs ++ joinTenants tenant ls := by
  rw [h.eq]; rfl

theorem mem_scopedAs_wheres {w : Where Tree}
    (hw : w ∈ s.wheres) : w = tenantWhere (b.qualify tenantColumn) tenant
      ∨ (∃ t, (scoping g tenant (.node b)).group = .ok t ∧ w = nestedWhere t)
      ∨ ∃ l ∈ ls, w = tenantWhere (.of l tenantColumn) tenant := by
  rw [scopedAs_wheres h] at hw
  rcases mem_append.mp hw with hw | hw
  · rcases mem_cons.mp hw with rfl | hw
    · exact .inl rfl
    · rcases h.group with ⟨-, rfl⟩ | ⟨t, ht, rfl⟩
      · simp at hw
      · exact .inr (.inl ⟨t, ht, mem_singleton.mp hw⟩)
  · obtain ⟨l, hl, rfl⟩ := mem_map.mp hw
    exact .inr (.inr ⟨l, hl, rfl⟩)

/-- No `or` stands at the top of a scoped statement. -/
theorem scopedAs_conj : Sql.Conj (g.whereClauses g.compile s.wheres) := by
  intro p hp
  obtain ⟨w, hw, rfl⟩ := mem_map.mp hp
  rcases mem_scopedAs_wheres h hw with rfl | ⟨t, -, rfl⟩ | ⟨l, -, rfl⟩ <;> rfl

/-- The table of a scoped statement is a subquery or the builder's own. -/
theorem scopedAs_table : s.table = b.table ∨ ∃ q as, s.table = some (.sub q as) := by
  rw [h.eq]
  exact placeAll_table _ b

theorem scopedAs_stored {t : TableName} (ht : s.table = some (.table t)) : b.table = some (.table t) := by
  rcases scopedAs_table h with hs | ⟨q, _, hs⟩
  · rw [← hs, ht]
  · rw [hs] at ht; cases ht

theorem scopedAs_joins : ∀ j' ∈ s.joins, ∃ j ∈ b.joins, ∃ t, j' = { j with table := t }
    ∧ (t = j.table ∨ t.isSub) := by
  rw [h.eq]
  exact placeAll_joins _ b

theorem scopedAs_aggregate : s.aggregate = b.aggregate ∧ s.groupLimit = b.groupLimit := by
  have := placeAll_frame (b.subqueries.zip qs) b
  rw [h.eq, dropSubqueries, clad, this]
  exact ⟨rfl, rfl⟩

variable (hp : Placed b)
include hp

theorem scopedAs_table_placed {t : TableArg} (ht : s.table = some t) : t.Placed True := by
  rcases scopedAs_table h with hs | ⟨q, _, hs⟩
  · exact (hp.table _ (hs ▸ ht)).imp fun _ => trivial
  · rw [hs] at ht; cases ht; trivial

theorem scopedAs_join_placed {j : JoinClause Tree} (hj : j ∈ s.joins) : j.table.Placed True := by
  obtain ⟨j₀, hj₀, t, rfl, ht⟩ := scopedAs_joins h j hj
  rcases ht with rfl | ht
  · obtain ⟨i, hi⟩ := mem_iff_getElem?.mp hj₀
    exact (hp.join i j₀ hi).imp fun _ => trivial
  · cases t with
    | sub => trivial
    | table | expr => cases ht

/-- **A scoped statement filters the table it reads from.** -/
theorem filtersOn_table {t : TableName} (ht : s.table = some (.table t)) :
    FiltersOn tenantColumn (.str tenant) t.label (g.whereClauses g.compile s.wheres) := by
  refine filtersOn_of_mem (c := b.qualify tenantColumn) ?_ (by rw [scopedAs_wheres h]; simp)
  rw [qualify_of_plain (scopedAs_table_placed h hp ht) (scopedAs_stored h ht)]
  rfl

/-- **And the tables it joins.** -/
theorem filtersOn_join {j : JoinClause Tree} (hj : j ∈ s.joins) {t : TableName} (ht : j.table = .table t) :
    FiltersOn tenantColumn (.str tenant) t.label (g.whereClauses g.compile s.wheres) := by
  have hplain : t.plain := by
    have := scopedAs_join_placed h hp hj
    rwa [ht] at this
  have hname : j.tableName = some t.label := by
    rw [JoinClause.tableName, ht]
    exact joinedTableName_text hplain
  obtain ⟨w, hw, hc⟩ := any_eq_true.mp (h.filtered j hj t.label hname)
  -- Only the tenant's own clauses compare a column at the top of the statement.
  refine filtersOn_of_mem (c := .of t.label tenantColumn) rfl ?_
  rcases mem_scopedAs_wheres h hw with rfl | ⟨_, -, rfl⟩ | ⟨l', hl', rfl⟩
  · have hc : b.qualify tenantColumn = .of t.label tenantColumn := by
      simpa [filtersColumn, tenantWhere] using hc
    rwa [← hc]
  · exact absurd hc (by simp [filtersColumn, nestedWhere])
  · have hc : l' = t.label := by simpa [filtersColumn, tenantWhere, Column.of] using hc
    rwa [← hc]

/-- The subqueries standing in a scoped statement are the scoped records. -/
theorem slots_guarded
    (ih : ∀ p ∈ b.subqueries, ∀ t, (scoping g tenant p.query).statement = .ok t →
      (g.compile t).query.Guarded tenantColumn (.str tenant))
    (kind : PendingKind) (i : Nat) {q : Sql.Query Val} (hq : slotQuery s kind i = some q) :
    q.Guarded tenantColumn (.str tenant) := by
  rw [h.eq] at hq
  rcases slotQuery_placeAll h.subqueries kind i b hq with ⟨p, hm, t, ht, -, rfl⟩ | ⟨hnone, hq⟩
  · exact ih p hm t ht
  · rw [slotQuery_unrecorded hp hnone] at hq
    cases hq

omit hp in
/-- The clauses of a scoped statement are guarded when its group is. -/
theorem wheres_guarded (ih : ∀ t, (scoping g tenant (.node b)).group = .ok t →
      ClausesGuarded tenantColumn (.str tenant) (g.compile t).wheres) :
    ClausesGuarded tenantColumn (.str tenant) (g.whereClauses g.compile s.wheres) := by
  rw [whereClauses_guarded_iff]
  intro w hw
  rcases mem_scopedAs_wheres h hw with rfl | ⟨t, ht, rfl⟩ | ⟨l, -, rfl⟩
  · exact tenantWhere_guarded _
  · rw [compileWhere_nested g.compile rfl rfl, Cond.Guarded]
    exact ih t ht
  · exact tenantWhere_guarded _

/-- Every table a scoped statement joins is filtered, its join conditions being bare. -/
theorem filtersOn_joins (hon : ∀ j ∈ b.joins, bareOn j.builder) :
    ∀ l ∈ Sql.joinsTableLabels (g.compileJoins g.compile s.joins),
      FiltersOn tenantColumn (.str tenant) l (g.whereClauses g.compile s.wheres) := by
  intro l hl
  rw [Sql.joinsTableLabels_eq, Grammar.compileJoins, flatMap_map] at hl
  obtain ⟨j, hj, hl⟩ := mem_flatMap.mp hl
  obtain ⟨j₀, hj₀, t, rfl, -⟩ := scopedAs_joins h j hj
  rcases mem_compileJoin_tableLabels hl with hl | hl
  · obtain ⟨n, hn, rfl⟩ := mem_source_tableLabels hl
    exact filtersOn_join h hp hj hn
  · simp [(bareOn_guarded tenant j₀.builder (hon j₀ hj₀)).1, Sql.joinsTableLabels] at hl

/-- **The select of a scoped statement is guarded** when its clauses and the subqueries standing in
it are. -/
theorem select_guarded (hon : ∀ j ∈ b.joins, bareOn j.builder) {items : List (Item Val)}
    (hi : ItemsGuarded tenantColumn (.str tenant) items)
    (hcs : ClausesGuarded tenantColumn (.str tenant) (g.whereClauses g.compile s.wheres))
    (hslot : ∀ kind i q, slotQuery s kind i = some q → q.Guarded tenantColumn (.str tenant)) :
    (g.selectWith g.compile s items []).Guarded tenantColumn (.str tenant) := by
  rw [Grammar.selectWith, Sql.Query.Guarded]
  refine ⟨⟨scopedAs_conj h, forall_mem_append.mpr ⟨?_, filtersOn_joins h hp hon⟩⟩, hi, ?_, ?_, hcs⟩
  · intro l hl
    cases ht : s.table with
    | none => simp [ht, Sql.optTableLabels] at hl
    | some t =>
      obtain ⟨n, rfl, rfl⟩ := mem_source_tableLabels (t := t) (by simpa [ht, Sql.optTableLabels] using hl)
      exact filtersOn_table h hp ht
  · cases ht : s.table with
    | none => simp [OptGuarded]
    | some t =>
      exact source_guarded (scopedAs_table_placed h hp ht) fun q as hq =>
        hslot .from 0 q (by simp [slotQuery, ht, hq])
  · rw [Sql.joinsGuarded_iff, Grammar.compileJoins, forall_mem_map]
    intro j hj
    obtain ⟨j₀, hj₀, t, rfl, -⟩ := scopedAs_joins h j hj
    obtain ⟨i, hi⟩ := mem_iff_getElem?.mp hj
    obtain ⟨hnil, hon⟩ := bareOn_guarded (g := g) tenant j₀.builder (hon j₀ hj₀)
    have hsrc : (g.compileSource t).Guarded tenantColumn (.str tenant) :=
      source_guarded (scopedAs_join_placed h hp hj) fun q as hq => hslot .join i q (by
        rw [hq] at hi
        simp [slotQuery, hi])
    unfold Grammar.compileJoin
    cases j₀.lateral <;> cases g.supportsLateral <;>
      simp [Sql.Join.Guarded, JoinsGuarded, hnil, hsrc, hon]

end Statement

variable {tenant : String} {g : Grammar}

/-- **A scoped statement whose join conditions are bare is guarded**, and likewise a group of
clauses.  The induction is over the builders below; a clause, a union member and a record
each refer to one of them. -/
theorem guarded_of_bareOns (t : Tree) (hstill : Everywhere (Still (· = none)) t) (hon : bareOns t) :
    (Sound g true t → ∀ s, (scoping g tenant t).statement = .ok s →
      (g.compile s).query.Guarded tenantColumn (.str tenant))
    ∧ (Sound g false t → ∀ s, (scoping g tenant t).group = .ok s →
      ClausesGuarded tenantColumn (.str tenant) (g.compile s).wheres) := by
  induction t using Tree.ind with
  | node b ih =>
    obtain ⟨hjoins, hbelow⟩ := (bareOns_node b).mp hon
    have ih : ∀ q ∈ b.children, _ := fun q hm => ih q hm (hstill.children q hm) (hbelow q hm)
    have hgroup : Sound g false (.node b) → ∀ s, (scoping g tenant (.node b)).group = .ok s →
        ClausesGuarded tenantColumn (.str tenant) (g.compile s).wheres := by
      intro hsound s hs
      cases hsound with
      | group plain typ below =>
        obtain ⟨_, bs, hws, rfl⟩ := group_ok hs
        rw [Grammar.compile_wheres, whereClauses_guarded_iff]
        intro w' hw'
        obtain ⟨w, hw, hww⟩ := forall₂_mem_right hws w' hw'
        refine scopesWhere_guarded hww (plain w hw) (typ w hw) ?_ ?_
        · intro q hq ht
          have hb := below w hw q hq
          rw [ht] at hb
          exact (ih q (Builder.where_mem_children hw hq)).2 hb
        · intro q hq ht
          have hb := below w hw q hq
          rw [decide_eq_true ht] at hb
          exact (ih q (Builder.where_mem_children hw hq)).1 hb
    refine ⟨?_, hgroup⟩
    intro hsound t ht
    cases hsound with
    | statement group placed aggregate unions subqueries =>
      obtain ⟨-, s, us, _, _, _, bs, rfl, -, hsc⟩ := statement_ok ht
      have hagg := scopedAs_aggregate hsc
      have hunions : s.unions = us := by rw [hsc.eq]; rfl
      rw [Grammar.compile_query]
      refine (compileSelect_guarded (hagg.2.trans hstill.here.2) (hagg.1.trans aggregate)).mpr ⟨?_, ?_⟩
      · have hslot := slots_guarded hsc placed fun p hp =>
          (ih _ (Builder.sub_mem_children hp)).1 (subqueries p hp)
        exact select_guarded hsc placed hjoins (items_guarded (hagg.1.trans aggregate) (hslot .select))
          (wheres_guarded hsc (hgroup group)) hslot
      · intro u' hu'
        obtain ⟨u, hu, huu⟩ := forall₂_mem_right hsc.unions u' (hunions ▸ hu')
        exact (ih _ (Builder.union_mem_children hu)).1 (unions u hu) _ huu.1

/-! ### Reads -/

section Reads

variable {g : Grammar} {encode : Val → Except String Val} {prog : Nat → List Action} {grant : Grant}

variable {columns : List ColArg}

/-- What an engine returns for the statement's text and the values sent with it. -/
def Statement.run (I : Sql.Interp Val) (D : Sql.Db Val) (s : Statement) : Option (List (Sql.Row Val)) :=
  (s.query.sent s.bindings).bind fun q => q.run I D

theorem Statement.run_of_sent {s : Statement} (h : s.Sent) (I : Sql.Interp Val) (D : Sql.Db Val) :
    s.run I D = s.query.run I D := by
  rw [Statement.run, Sql.Query.sent_eq h]
  rfl

theorem get_eq_ok {t : Tree} {stmt : Statement} :
    get prog g grant t columns = .ok stmt → ∃ s, scopedFor prog g grant t = .ok s
      ∧ stmt.query = (g.compile (.node (s.builder.choosing columns))).query := by
  intro h
  obtain ⟨s, hs, h⟩ := bind_eq_ok.mp h
  obtain ⟨p, hp, rfl⟩ := map_eq_ok.mp h
  obtain ⟨-, rfl⟩ := toSql_eq_ok.mp hp
  exact ⟨s, hs, rfl⟩

/-- Columns named in the call to `Get` add nothing to guard. -/
theorem choosing_guarded {s : Builder Tree} {tenant : String}
    (hc : ∀ c ∈ columns, ∃ n, c = .name n) (hg : s.groupLimit = none) (ha : s.aggregate = none)
    (h : (g.compile (.node s)).query.Guarded tenantColumn (.str tenant)) :
    (g.compile (.node (s.choosing columns))).query.Guarded tenantColumn (.str tenant) := by
  cases hs : s.columns with
  | some cs =>
    have hself : s.choosing columns = s := by
      rw [Builder.choosing, hs, Option.getD_some, ← hs]
    rwa [hself]
  | none =>
    rw [Grammar.compile_query, compileSelect_guarded hg ha, Grammar.selectWith, Sql.Query.Guarded] at h
    obtain ⟨⟨hself, -, hrest⟩, hu⟩ := h
    rw [Grammar.compile_query, compileSelect_guarded (by exact hg) (by exact ha), Grammar.selectWith,
      Sql.Query.Guarded]
    refine ⟨⟨hself, items_guarded ha fun i q hq => ?_, hrest⟩, hu⟩
    -- Every column of the call is a name.
    simp only [slotQuery, Builder.choosing, calledColumns, hs, Option.getD_some, Option.getD_none] at hq
    split at hq
    · next p q as hi =>
      have hm := mem_of_getElem? hi
      split at hm
      · simp at hm
      · obtain ⟨n, hn⟩ := hc _ hm
        cases hn
    · cases hq

/-- `users join posts on posts.user_id = users.id`, with two clauses and an `or` between them. -/
def postsOfUsers : List Call :=
  [.from ⟨"users", none⟩,
    .join .inner ⟨"posts", none⟩
      [.whereColumn .and (.name (.of "posts" "user_id")) "=" (.name (.of "users" "id"))],
    .where .and (.name (.of "users" "active")) "=" (.int 1),
    .where .or (.name (.of "posts" "public")) "=" (.int 1)]

/-- The same join, asking for an audit in its condition. -/
def auditedPosts : List Call :=
  [.from ⟨"users", none⟩,
    .join .inner ⟨"posts", none⟩
      [.whereColumn .and (.name (.of "posts" "user_id")) "=" (.name (.of "users" "id")),
        .whereExists .and false [.from ⟨"audits", none⟩]]]

/-- An engine that takes every comparison for true and looks whether a subquery has rows. -/
def lenientEngine : Sql.Interp Val where
  bare := fun _ _ => none
  atom := fun _ _ => some true
  sub := fun _ _ rows _ => some !rows.isEmpty
  raw := fun _ _ _ => []
  finish := fun _ kept _ => kept.map fun _ _ => none
  compound := fun _ _ _ => []

/-- One row of `acme` in every table but `audits`. -/
def auditsDb (audits : List (Sql.Row Val)) : Sql.Db Val := fun name =>
  if name = "audits" then audits
  else [fun column => if column = tenantColumn then some (.str "acme") else none]

/-- A row of another tenant. -/
def otherRow : Sql.Row Val := fun column => if column = tenantColumn then some (.str "other") else none

theorem auditsDb_agree : Sql.Agree tenantColumn (.str "acme") (auditsDb []) (auditsDb [otherRow]) := by
  intro _
  unfold auditsDb
  split
  · simp [otherRow]
  · rfl

end Reads

end Hesape.Query
