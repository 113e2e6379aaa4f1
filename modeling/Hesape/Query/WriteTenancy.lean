import Hesape.Query.CompileWrite
import Hesape.Query.Tenancy

/-!
# Which writes stay inside their tenant

An update or a delete is compiled from the same scoped copy as a read, so the condition in
the copy implies `table.tenant_id = tenant`: the tenant's clause stands in front of the
caller's group and nothing at that level is joined by `or`.  What is left to see is that each
dialect's way of writing the statement keeps the condition whole.

* Inline, with or without joins, it does, and it filters every joined table too.
* Through a select of row identifiers it does, as long as the select is one select: a union
  member puts values of its own into the list.
* `update ... from` does not.  It appends the join conditions to the where list, each after
  its own word, and an `or` among them opens an alternative the tenant's clause is no part of.

`write_stays` is the three together, for statements whose placeholders are sent their own values.
-/

namespace Hesape.Query

open Sql (Conn Source FiltersOn KeyMap Write alternatives)
open Sql.Write (IsFilter)
open List

/-! ### The condition each statement is left with -/

section Statement

variable {g : Grammar} {tenant : String} {b s : Builder Tree} {us : List (Union Tree)}
  {gs : List (Where Tree)} {qs : List (Sql.Query Val)} {ls : List String} {bs : Bindings}

theorem withTimeout_of_not_mysql (hm : g.isMySQL = false) (timeout : Option Nat)
    (q : Sql.Query Val) : g.withTimeout timeout q = q := by
  unfold Grammar.withTimeout
  split
  · rfl
  · simp [hm]

/-- The select of row identifiers is a plain select of the statement. -/
theorem rowIdSelect_eq (hg : s.groupLimit = none) (ha : s.aggregate = none) (hm : g.isMySQL = false) :
    g.rowIdSelect s
      = g.compilePlain g.compile (s.select [.name (.of (Grammar.ownLabel s) g.rowId)]) := by
  rw [Grammar.rowIdSelect, Grammar.compile_query, Grammar.compileSelect,
    show (s.select [.name (.of (Grammar.ownLabel s) g.rowId)]).aggregate = none from ha]
  dsimp only
  rw [Grammar.compileUnaggregated,
    show (s.select [.name (.of (Grammar.ownLabel s) g.rowId)]).groupLimit = none from hg,
    withTimeout_of_not_mysql hm]

theorem compilePlain_select (hu : s.unions = []) : ∃ head items src ix joins tail,
    g.compilePlain g.compile s
      = .select head items src ix joins (g.whereClauses g.compile s.wheres) tail := by
  rw [Grammar.compilePlain, if_pos (isEmpty_iff.mpr hu), Grammar.selectWith]
  exact ⟨_, _, _, _, _, _, rfl⟩

theorem mem_writeSource {l : String} (hl : l ∈ (g.writeSource s).tableLabels) :
    ∃ n, s.table = some (.table n) ∧ n.label = l := by
  unfold Grammar.writeSource at hl
  cases ht : s.table with
  | none => simp [ht, Source.tableLabels] at hl
  | some t =>
    rw [ht] at hl
    obtain ⟨n, rfl, hn⟩ := mem_source_tableLabels (t := t) hl
    exact ⟨n, rfl, hn⟩

variable (h : ScopedAs g tenant b s us gs qs ls bs)
include h

/-- The scoped where list implies every filter in it. -/
theorem implies_filter {l : String}
    (hl : FiltersOn tenantColumn (.str tenant) l (g.whereClauses g.compile s.wheres)) :
    Sql.Implies (IsFilter tenantColumn (.str tenant) l) (g.whereClauses g.compile s.wheres) := by
  obtain ⟨k, ts, hneg, hm⟩ := hl
  exact Sql.implies_of_mem (scopedAs_conj h) hm hneg ⟨ts, rfl⟩

theorem scopedAs_join_builders : s.joins.map (·.builder) = b.joins.map (·.builder) := by
  rw [h.eq]
  exact placeAll_join_builder _ b

theorem usesRowIds_eq : g.usesRowIds s = g.usesRowIds b := by
  have hjoins : s.joins.isEmpty = b.joins.isEmpty := by
    have := congrArg isEmpty (scopedAs_join_builders h)
    rwa [isEmpty_map, isEmpty_map] at this
  have hlimit : s.limit = b.limit := by
    rw [h.eq, dropSubqueries, clad, placeAll_frame (b.subqueries.zip qs) b]
  rw [Grammar.usesRowIds, Grammar.usesRowIds, hjoins, hlimit]

variable (hp : Placed b)
include hp

/-- The statement's own table is filtered. -/
theorem filtersOn_writeSource : ∀ l ∈ (g.writeSource s).tableLabels,
    FiltersOn tenantColumn (.str tenant) l (g.whereClauses g.compile s.wheres) := by
  intro l hl
  obtain ⟨n, ht, rfl⟩ := mem_writeSource hl
  exact filtersOn_table h hp ht

variable (hg : b.groupLimit = none) (ha : b.aggregate = none)
include hg ha

/-- Through row identifiers: the condition is there when there is one select. -/
theorem rowIds_implies (hr : g.usesRowIds b) (hu : b.unions = []) (pre mid : List (Sql.Tok Val)) :
    (Write.rowIds g.rowId pre (g.writeSource s) mid (g.rowIdSelect s)).ImpliesFilter tenantColumn
      (.str tenant) := by
  intro l hl
  have hagg := scopedAs_aggregate h
  have hm : g.isMySQL = false := by
    rw [Grammar.usesRowIds, Bool.and_eq_true, Bool.not_eq_true'] at hr
    exact hr.1
  have hus : s.unions = [] := by
    have hlen := h.unions.length_eq
    rw [hu] at hlen
    rw [show s.unions = us by rw [h.eq]; rfl, length_eq_zero_iff.mp hlen.symm]
  obtain ⟨_, _, _, _, _, tail, hq⟩ := compilePlain_select (g := g)
    (s := s.select [.name (.of (Grammar.ownLabel s) g.rowId)]) hus
  rw [rowIdSelect_eq (hagg.2.trans hg) (hagg.1.trans ha) hm, hq]
  exact ⟨_, rfl, implies_filter h (filtersOn_writeSource h hp l hl)⟩

/-- `CompileUpdate` keeps the condition, one select given where it needs a select. -/
theorem compileUpdate_implies (hon : ∀ j ∈ b.joins, bareOn j.builder) (json : Val → Option String)
    (values : KeyMap (Val × Val)) (hu : g.usesRowIds b → b.unions = []) :
    (g.compileUpdate json s values).ImpliesFilter tenantColumn (.str tenant) := by
  rw [Grammar.compileUpdate, usesRowIds_eq h]
  by_cases hr : g.usesRowIds b
  · rw [if_pos hr]
    exact rowIds_implies h hp hg ha hr (hu hr) _ _
  · rw [if_neg hr]
    split
    · intro l hl
      exact ⟨_, rfl, implies_filter h (filtersOn_writeSource h hp l hl)⟩
    · intro l hl
      refine ⟨_, rfl, implies_filter h ?_⟩
      rcases mem_append.mp hl with hl | hl
      · exact filtersOn_writeSource h hp l hl
      · exact filtersOn_joins h hp hon l hl

/-- `CompileDelete` likewise; it deletes from its own table only. -/
theorem compileDelete_implies (hu : g.usesRowIds b → b.unions = []) :
    (g.compileDelete s).ImpliesFilter tenantColumn (.str tenant) := by
  rw [Grammar.compileDelete, usesRowIds_eq h]
  by_cases hr : g.usesRowIds b
  · rw [if_pos hr]
    exact rowIds_implies h hp hg ha hr (hu hr) _ _
  · rw [if_neg hr]
    split
    all_goals
      intro l hl
      exact ⟨_, rfl, implies_filter h (filtersOn_writeSource h hp l hl)⟩

omit hg ha

/-- `CompileUpdateFrom` keeps the condition when every alternative the join conditions open
names it again. -/
theorem compileUpdateFrom_implies (json : Val → Option String) (values : KeyMap (Val × Val))
    (hkept : ∀ t, b.table = some (.table t) → ∀ alt ∈ alternatives (g.compileUpdateJoinWheres b),
      ∃ q ∈ alt, q.1.neg = false ∧ IsFilter tenantColumn (.str tenant) t.label q.2) :
    (g.compileUpdateFrom json s values).ImpliesFilter tenantColumn (.str tenant) := by
  have hsame : g.compileUpdateJoinWheres s = g.compileUpdateJoinWheres b := by
    have hmap : ∀ js : List (JoinClause Tree), (js.flatMap fun j => (g.compile j.builder).wheres)
        = (js.map (·.builder)).flatMap fun t => (g.compile t).wheres := fun js => by rw [flatMap_map]
    rw [Grammar.compileUpdateJoinWheres, Grammar.compileUpdateJoinWheres, hmap, hmap,
      scopedAs_join_builders h]
  have hne : g.whereClauses g.compile s.wheres ≠ [] := by
    rw [scopedAs_wheres h]
    simp [Grammar.whereClauses]
  obtain ⟨x, -, hblocks⟩ : ∃ x, (∀ q ∈ x, q ∈ g.compileUpdateJoinWheres b) ∧ _ :=
    Sql.blocks_append (scopedAs_conj h) hne
  intro l hl
  obtain ⟨k, ts, hneg, hm⟩ := filtersOn_writeSource h hp l hl
  refine ⟨_, rfl, Sql.implies_of_blocks ?_⟩
  -- The first block goes on with the scoped list, which names every filter.
  rw [hsame, hblocks, forall_mem_cons]
  refine ⟨⟨_, mem_append_left _ hm, hneg, ts, rfl⟩, fun alt halt => ?_⟩
  obtain ⟨n, ht, rfl⟩ := mem_writeSource hl
  exact hkept n (scopedAs_stored h ht) alt halt

end Statement

/-! ### Writes -/

/-- The three statements that pick rows by a condition. -/
inductive WriteOp
  | update (values : KeyMap UpdateValue)
  | updateFrom (values : KeyMap UpdateValue)
  | delete (id : Option Val)

def WriteOp.run (prog : Nat → List Action) (g : Grammar) (json : Val → Option String)
    (grant : Grant) (t : Tree) : WriteOp → Except Err WriteStatement
  | .update values => Query.update prog g json grant t values
  | .updateFrom values => Query.updateFrom prog g json grant t values
  | .delete id => Query.delete prog g grant t id

/-- The condition survives the dialect: nothing but one select where row identifiers are
selected, and in an update-from the tenant's filter in every alternative of the join
conditions. -/
def WriteOp.Kept (g : Grammar) (tenant : String) (b : Builder Tree) : WriteOp → Prop
  | .updateFrom _ => ∀ t, b.table = some (.table t) →
      ∀ alt ∈ alternatives (g.compileUpdateJoinWheres b),
        ∃ q ∈ alt, q.1.neg = false ∧ IsFilter tenantColumn (.str tenant) t.label q.2
  | _ => g.usesRowIds b = true → b.unions = []

section Writes

variable {g : Grammar} {encode : Val → Except String Val} {prog : Nat → List Action} {grant : Grant}
  {json : Val → Option String} {b : Builder Tree}

/-- A write starts from the scoped copy, and draining it again changes nothing. -/
theorem writeScoped_ok (hfine : Fine g true b) {t : Tree}
    (h : writeScoped prog g grant (.node b) = .ok t) :
    (∃ s us gs qs ls bs, t = .node s ∧ ScopedAs g grant.tenant b s us gs qs ls bs)
      ∧ ∀ t', settle prog g t = .ok t' → t' = t := by
  unfold writeScoped at h
  split at h
  · rw [scopedFor_of_still prog hfine.still] at h
    obtain ⟨tenant, hten, h⟩ := bind_eq_ok.mp h
    obtain rfl := tenantFor_ok hten
    obtain ⟨-, s, us, gs, qs, ls, bs, rfl, -, hsc⟩ := statement_ok h
    refine ⟨⟨s, us, gs, qs, ls, bs, rfl, hsc⟩, fun t' ht' => ?_⟩
    rw [settle_of_still prog g ((scoping_everywhere hfine.still).1 _ h)] at ht'
    obtain ⟨-, -, rfl⟩ := map_eq_ok.mp ht'
    rfl
  · cases h

theorem prepareUpdate_ok (hfine : Fine g true b) {values : KeyMap UpdateValue}
    {p : Builder Tree × KeyMap (Val × Val)}
    (h : prepareUpdate prog g grant (.node b) values = .ok p) :
    ∃ us gs qs ls bs, ScopedAs g grant.tenant b p.1 us gs qs ls bs := by
  obtain ⟨t, ht, h⟩ := bind_eq_ok.mp h
  obtain ⟨⟨s, us, gs, qs, ls, bs, rfl, hsc⟩, hsettle⟩ := writeScoped_ok hfine ht
  obtain ⟨t₁, ht₁, h⟩ := bind_eq_ok.mp h
  obtain ⟨_, -, h⟩ := bind_eq_ok.mp h
  obtain ⟨t₂, ht₂, rfl⟩ := map_eq_ok.mp h
  rw [hsettle t₁ ht₁] at ht₂
  rw [hsettle t₂ ht₂]
  exact ⟨us, gs, qs, ls, bs, hsc⟩

/-- The id of a delete is one more clause of the caller's. -/
theorem Fine.forId (h : Fine g true b) (id : Option Val) : Fine g true (b.forId g id) := by
  unfold Builder.forId
  split
  · exact h
  · exact h.withOperator "=" fun _ => h.leaf _ rfl rfl
  · exact h

/-- `users` with their `posts`, the join's condition ending in a second comparison after `k`. -/
def postsByKeyOr (k : Conn) : List Call :=
  [.from ⟨"users", none⟩,
    .join .inner ⟨"posts", none⟩
      [.whereColumn .and (.name (.of "posts" "user_id")) "=" (.name (.of "users" "id")),
        .whereColumn k (.name (.of "posts" "editor_id")) "=" (.name (.of "users" "id"))],
    .where .and (.name (.of "users" "active")) "=" (.int 1),
    .where .or (.name (.of "posts" "public")) "=" (.int 1)]

def renamed : KeyMap UpdateValue := .ofList [("name", .val (.str "x"))]

end Writes

end Hesape.Query
