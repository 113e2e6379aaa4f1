import Hesape.Query.Cursor
import Mathlib.Data.List.Chain

/-!
# A walk by cursors

Where the clauses of a query are joined by `and`, the condition a cursor puts behind them bounds the
whole of them, and a row passes it exactly when it comes after the row the cursor was made of
(`cursorGroup_truth`).  So a page is a stretch of the sorted rows: what follows the boundary going
forward, what precedes it going back (`forward_page`, `backward_page`), and the walk
visits every row once (`cursor_pages_partition`).

With an `or` among the clauses the condition bounds the last alternative only.
-/

namespace Hesape.Query

open Sql (Tok Conn Cond Truth evalClauses)
open Hesape.Order (before sorted Strict)
open List

/-! ### What the engine makes of a comparison -/

section Comparisons

variable {V : Type} [LinearOrder V]

/-- A value against a parameter; null compares with nothing. -/
def compared (op : String) : WithBot V → V → Truth
  | ⊥, _ => none
  | (v : V), w => some (if op = "=" then decide (v = w) else if op = "<" then decide (v < w) else decide (w < v))

/-- The engine compares a column with a text as it should. -/
def Compares (g : Grammar) (E : Engine V) : Prop :=
  ∀ c : Column, ∀ op ∈ ["=", "<", ">"], ∀ (s : String) (r : E.Row),
    E.atom (infixToks (g.wrap (cursorColumn c)) op [.param (.str s)]) r = compared op (E.value r c) (E.read s)

variable {op : String}

theorem normalizeOperator_comparison (g : Grammar) (h : op ∈ ["=", "<", ">"]) :
    normalizeOperator g.getOperators none op = .ok op := by
  have hlisted : ∀ l : List String, normalizeOperator (operators ++ l) none op = .ok op := by
    intro l
    obtain ⟨hfind, hsafe⟩ : declaredOperator operators op = some op ∧ lexicallySafeOperator op := by
      revert op
      decide
    rw [normalizeOperator, hsafe, declaredOperator, find?_append]
    rw [declaredOperator] at hfind
    rw [hfind]
    rfl
  unfold Grammar.getOperators
  split
  · exact hlisted _
  · exact hlisted _
  · rw [append_assoc]; exact hlisted _
  · exact hlisted _

variable {b : Builder Tree}

theorem addWhere_comparison (g : Grammar) (hb : b.err = none) (k : Conn)
    (column : ColArg) (h : op ∈ ["=", "<", ">"]) (v : Val) :
    b.addWhere g k column op v
      = b.pushWhere { typ := "Basic", column, operator := op, value := v, boolean := k } v.binding := by
  unfold Builder.addWhere Builder.withOperator
  rw [normalizeOperator_comparison g h]
  simp [hb]

variable {E : Engine V} {g : Grammar}

theorem truth_comparison (hE : Compares g E) (c : Column) (k : Conn)
    (h : op ∈ ["=", "<", ">"]) (s : String) (r : E.Row) :
    E.truth (g.compileWhere g.compile
        { typ := "Basic", column := cursorColumn c, operator := op, value := .str s, boolean := k }) r
      = compared op (E.value r c) (E.read s) := by
  rw [← hE c op h s r]
  have htoks : ∀ left : List (Tok Val), g.basicToks left op (.str s) = infixToks left op [.param (.str s)] := by
    intro left
    obtain ⟨hlike, hspace, hmarks⟩ : containsText "like" (lower op) = false ∧ op ≠ "<=>" ∧ doubleMarks op = op := by
      revert op
      decide
    rw [Grammar.basicToks, hlike, hmarks]
    simp [hspace, parameter]
  have hcond : g.compileWhere g.compile
      { typ := "Basic", column := cursorColumn c, operator := op, value := .str s, boolean := k }
      = .atom (Grammar.equality? (cursorColumn c) op (.str s))
          (g.basicToks (g.wrap (cursorColumn c)) op (.str s)) := by
    have ht : whereType "Basic" false = (.basic, false) := by decide
    unfold cursorColumn
    split <;> simp only [Grammar.compileWhere, ht]
  rw [hcond, Engine.truth, htoks]

/-! ### The condition of a cursor -/

/-- The clauses of a builder, as one condition. -/
def Engine.holds (g : Grammar) (E : Engine V) (b : Builder Tree) (r : E.Row) : Truth :=
  evalClauses id (E.truths (g.whereClauses g.compile b.wheres) r)

omit [LinearOrder V] in
theorem Engine.truths_append (E : Engine V) (r : E.Row) : ∀ cs ds : List (Conn × Cond Val),
    E.truths (cs ++ ds) r = E.truths cs r ++ E.truths ds r := by
  intro cs ds
  induction cs with
  | nil => rfl
  | cons p _ ih =>
    rw [cons_append, Engine.truths, Engine.truths, ih, cons_append]

omit [LinearOrder V] in
/-- A clause behind the others is read behind them. -/
theorem truths_pushWhere (b : Builder Tree) (w : Where Tree) (vs : List Val)
    (r : E.Row) :
    E.truths (g.whereClauses g.compile (b.pushWhere w vs).wheres) r
      = E.truths (g.whereClauses g.compile b.wheres) r
        ++ [(w.boolean, E.truth (g.compileWhere g.compile w) r)] := by
  rw [Builder.pushWhere, Grammar.whereClauses, map_append, Engine.truths_append]
  rfl

omit [LinearOrder V] in
theorem truth_nested (b : Builder Tree) (k : Conn) (r : E.Row) :
    E.truth (g.compileWhere g.compile { typ := "Nested", query := some (.node b), boolean := k }) r
      = E.holds g b r := by
  have ht : whereType "Nested" false = (.nested, false) := by decide
  simp only [Grammar.compileWhere, ht, Grammar.compile_wheres, Engine.truth, Engine.holds]

/-- A builder without an error whose where clauses are worth `ts` in a row, one at least. -/
structure Says (g : Grammar) (E : Engine V) (b : Builder Tree) (ts : E.Row → List (Conn × Truth)) :
    Prop where
  err : b.err = none
  written : b.wheres ≠ []
  truths : ∀ r, E.truths (g.whereClauses g.compile b.wheres) r = ts r

omit [LinearOrder V] in
theorem Says.holds {ts : E.Row → List (Conn × Truth)}
    (h : Says g E b ts) (r : E.Row) : E.holds g b r = evalClauses id (ts r) := by
  rw [Engine.holds, h.truths]

/-- One comparison on a fresh group. -/
theorem says_addWhere (hE : Compares g E)
    (hb : b.err = none) (hw : b.wheres = []) (c : Column) (h : op ∈ ["=", "<", ">"])
    (s : String) :
    Says g E (b.addWhere g .and (cursorColumn c) op (.str s))
      fun r => [(.and, compared op (E.value r c) (E.read s))] := by
  rw [addWhere_comparison g hb .and (cursorColumn c) h]
  refine ⟨hb, by simp [Builder.pushWhere], fun r => ?_⟩
  rw [truths_pushWhere, truth_comparison hE c .and h, hw]
  rfl

omit [LinearOrder V] in
theorem addNestedWhereQuery_eq {b n : Builder Tree}
    {ts : E.Row → List (Conn × Truth)} (hn : Says g E n ts) {k : Conn} :
    b.addNestedWhereQuery k (.node n)
      = b.pushWhere { typ := "Nested", query := some (.node n), boolean := k } (n.bindings .where) := by
  have he : n.wheres.isEmpty = false := by simpa using hn.written
  simp [Builder.addNestedWhereQuery, Tree.builder, hn.err, he]

omit [LinearOrder V] in
/-- A group behind the clauses of a builder. -/
theorem Says.nested {b n : Builder Tree} {ts us : E.Row → List (Conn × Truth)}
    (hb : Says g E b ts) (hn : Says g E n us) (k : Conn) :
    Says g E (b.addNestedWhereQuery k (.node n)) fun r => ts r ++ [(k, evalClauses id (us r))] := by
  rw [addNestedWhereQuery_eq hn]
  refine ⟨hb.err, by simp [Builder.pushWhere], fun r => ?_⟩
  rw [truths_pushWhere, truth_nested, hb.truths, hn.holds]

/-- The tuple a cursor stands for, in the columns of `orders`. -/
def Cursor.bound (E : Engine V) (value : Order → String) (orders : List Order) : List (WithBot V) :=
  orders.map fun o => (E.read (value o) : WithBot V)

/-- One column of the condition. -/
theorem compared_eq {d : Bool} (hop : op = if d then "<" else ">") (v w : V) :
    compared op (v : WithBot V) w
      = some (if d then decide ((v : WithBot V) < w) else decide ((w : WithBot V) < v)) := by
  subst hop
  cases d <;> simp [compared]

/-- **What the condition says**: the row comes after the one the cursor was made of. -/
theorem cursorGroup_says (hE : Compares g E) (b : Builder Tree)
    (cursor : Cursor) (value : Order → String) :
    ∀ (rest : List Order) (o : Order) (original : Column) (second : Builder Tree),
    (∀ q ∈ o :: rest, cursor.parameter q.text = .ok (value q)) →
    second.err = none → second.wheres = [] →
    ∃ built ts, cursorGroup g b cursor original second (o :: rest) = .ok built ∧ Says g E built ts ∧
      ∀ r, (∀ c ∈ original :: rest.map (fun q => b.originalColumn g q.text), E.value r c ≠ ⊥) →
        evalClauses id (ts r)
          = some (before ((o :: rest).map fun q => decide (q.direction = "desc"))
              (Cursor.bound E value (o :: rest))
              (E.value r original :: rest.map fun q => E.value r (b.originalColumn g q.text))) := by
  intro rest
  induction rest with
  | nil =>
    intro o original second hpar herr hnil
    have hop : cursorOperator o ∈ ["=", "<", ">"] := by unfold cursorOperator; split <;> simp
    refine ⟨_, _, ?_, says_addWhere hE herr hnil original hop (value o), fun r hr => ?_⟩
    · rw [cursorGroup, hpar o (by simp)]
      rfl
    · obtain ⟨v, hv⟩ := WithBot.ne_bot_iff_exists.mp (hr original (by simp))
      rw [← hv, compared_eq (d := decide (o.direction = "desc")) (by simp [cursorOperator])]
      show some _ = some (before [_] [_] [_])
      simp [before]
  | cons next _ ih =>
    intro o original second hpar herr hnil
    have hop : cursorOperator o ∈ ["=", "<", ">"] := by unfold cursorOperator; split <;> simp
    have hbounded := says_addWhere hE herr hnil original hop (value o)
    have hthird := says_addWhere hE (b := (second.addWhere g .and (cursorColumn original) (cursorOperator o)
      (.str (value o))).forNestedWhere) rfl rfl original (show "=" ∈ ["=", "<", ">"] by simp) (value o)
    obtain ⟨_, ts, hinner, hsays, htruth⟩ := ih next (b.originalColumn g next.text)
      (Builder.forNestedWhere _) (fun q hq => hpar q (by simp [mem_cons.mp hq])) rfl rfl
    refine ⟨_, _, ?_, hbounded.nested (hthird.nested hsays .and) .or, fun r hr => ?_⟩
    · rw [cursorGroup, hpar o (by simp)]
      simp only [Except.bind]
      rw [hinner]
      rfl
    · obtain ⟨v, hv⟩ := WithBot.ne_bot_iff_exists.mp (hr original (by simp))
      have hrest := htruth r fun c hc => hr c (by simp only [map_cons]; exact mem_cons_of_mem _ hc)
      rw [← hv, compared_eq (d := decide (o.direction = "desc")) (by simp [cursorOperator])]
      show (Sql.Truth.or (some _) (Sql.Truth.and (compared "=" (v : WithBot V) _) (evalClauses id (ts r)))) = _
      rw [hrest]
      simp only [compared, if_true, map_cons, Cursor.bound, before, Sql.Truth.and_some,
        Sql.Truth.or_some, WithBot.coe_inj, eq_comm]

end Comparisons

/-! ### What the cursor bounds -/

section Bounds

variable {V : Type} (E : Engine V) (g : Grammar)

/-- The row meets an alternative of the where clauses in front of the last one. -/
def Engine.early (b : Builder Tree) (r : E.Row) : Bool :=
  (Sql.blocks (E.truths (g.whereClauses g.compile b.wheres) r)).dropLast.any fun block =>
    block.all fun p => p.1.sign p.2 == some true

variable {E g} {b : Builder Tree} {r : E.Row}

theorem early_iff : E.early g b r ↔
    ∃ block ∈ (Sql.blocks (E.truths (g.whereClauses g.compile b.wheres) r)).dropLast,
      Sql.BlockTrue id block := by
  simp [Engine.early, Sql.BlockTrue]

theorem passes_iff : E.passes g b r ↔ E.holds g b r = some true := by
  simp [Engine.passes, Engine.holds]

theorem passes_of_early (h : E.early g b r) : E.passes g b r := by
  obtain ⟨block, hmem, htrue⟩ := early_iff.mp h
  exact passes_iff.mpr (Sql.evalClauses_eq_true_iff.mpr ⟨block, dropLast_subset _ hmem, htrue⟩)

/-- **A condition behind the clauses of a query bounds its last alternative only.** -/
theorem passes_nested {n : Builder Tree} {ts : E.Row → List (Conn × Truth)} (hn : Says g E n ts) :
    E.passes g (b.addNestedWhereQuery .and (.node n)) r
      = (E.early g b r || (E.passes g b r && (evalClauses id (ts r) == some true))) := by
  have htruths : E.truths (g.whereClauses g.compile (b.addNestedWhereQuery .and (.node n)).wheres) r
      = E.truths (g.whereClauses g.compile b.wheres) r ++ [(Conn.and, evalClauses id (ts r))] := by
    rw [addNestedWhereQuery_eq hn, truths_pushWhere, truth_nested, hn.holds]
  rw [Bool.eq_iff_iff, Bool.or_eq_true, Bool.and_eq_true, early_iff, passes_iff, passes_iff, beq_iff_eq,
    Engine.holds, Engine.holds, htruths]
  exact Sql.evalClauses_snoc rfl

end Bounds

/-! ### The queries that are paged -/

section Paged

variable {V : Type} (g : Grammar) (E : Engine V) (b : Builder Tree) (columns : List ColArg)

/-- A query for the rows that pass its where clauses. -/
structure RowQuery (b : Builder Tree) : Prop where
  err : b.err = none
  unions : b.unions = []
  unionOrders : b.unionOrders = []
  groups : b.groups = []
  havings : b.havings = []
  distinct : b.distinct = none
  groupLimit : b.groupLimit = none
  aggregate : b.aggregate = none
  callbacks : b.callbacks = []

/-- The ordering has a direction in each column, no two rows that pass are alike in it, and its
values, never null, survive being formatted to text. -/
structure Keyed : Prop where
  ordered : b.orders ≠ []
  directed : ∀ o ∈ b.orders, o.direction = "asc" ∨ o.direction = "desc"
  unique : (E.matching g b).Pairwise fun r s => E.key g b r ≠ E.key g b s
  survive : ∀ r ∈ E.matching g b, ∀ o ∈ b.orders,
    E.value r (b.originalColumn g o.text)
      = (E.read (E.stringify (E.value r (b.originalColumn g o.text))) : V)

/-- The select list returns every ordering column, under the name the cursor reads it by. -/
def Returned : Prop := ∀ r ∈ E.matching g b, ∀ o ∈ b.orders,
  E.record (b.columns.getD (calledColumns columns)) r (pluckName o.text)
    = E.value r (b.originalColumn g o.text)

/-- Both: the text a cursor takes of a row is read as the value the row has. -/
structure Paged : Prop extends Keyed g E b where
  returned : Returned g E b columns

/-- The query as it is read: backwards with its orders turned around. -/
def Builder.turned (b : Builder Tree) (back : Bool) : Builder Tree :=
  if back then { b with orders := reverseDirections b.orders, unionOrders := reverseDirections b.unionOrders }
  else b

/-- The cursor at a row. -/
def Engine.cursorAt (r : E.Row) (back : Bool) : Cursor :=
  ⟨E.parameters (b.columns.getD (calledColumns columns)) b.orders r, !back⟩

/-- A page of rows that were read. -/
def Engine.pageOf (perPage : Nat) (cursor : Option Cursor) (rows : List E.Row) : List E.Row × CursorPage :=
  let key := fun i => ((rows[i]?).map (E.parameters (b.columns.getD (calledColumns columns)) b.orders)).getD []
  let page := newCursorPage rows.length perPage cursor key
  let kept := rows.take page.count
  (if page.reversed then kept.reverse else kept, page)

variable {g E b columns}

theorem length_key (r : E.Row) : (E.key g b r).length = (Engine.directions b).length := by
  rw [Engine.key, Engine.directions, length_map, length_map]

variable {A : Type} {o : Order} {x : E.Row}

theorem map_text_reverseDirections (f : String → A) (os : List Order) :
    ((reverseDirections os).map fun o => f o.text) = os.map fun o => f o.text := by
  rw [reverseDirections, map_map]
  refine map_congr_left fun o _ => ?_
  show f (Order.text (if _ then _ else _)) = _
  split
  · rfl
  · split <;> rfl

theorem map_text_turned (f : String → A) (back : Bool) :
    ((b.turned back).orders.map fun o => f o.text) = b.orders.map fun o => f o.text := by
  cases back with
  | false => rfl
  | true => exact map_text_reverseDirections f b.orders

theorem parameters_turned (cols : List ColArg) (back : Bool) :
    E.parameters cols (b.turned back).orders = E.parameters cols b.orders := by
  funext r
  exact map_text_turned (fun name => (name, E.stringify (E.record cols r (pluckName name)))) back

theorem columns_turned (back : Bool) : (b.turned back).columns = b.columns := by
  cases back <;> rfl

theorem key_turned (back : Bool) : E.key g (b.turned back) = E.key g b := by
  funext r
  have horiginal : (b.turned back).originalColumn g = b.originalColumn g := by
    cases back <;> rfl
  rw [Engine.key, horiginal]
  exact map_text_turned (fun name => E.value r (b.originalColumn g name)) back

theorem directions_turned (hk : Paged g E b columns) (back : Bool) :
    Engine.directions (b.turned back)
      = if back then (Engine.directions b).map (!·) else Engine.directions b := by
  cases back with
  | false => rfl
  | true =>
    show Engine.directions { b with orders := reverseDirections b.orders, .. } = _
    rw [Engine.directions, reverseDirections, if_pos rfl, Engine.directions, map_map, map_map]
    refine map_congr_left fun o ho => ?_
    rcases hk.directed o ho with h | h <;> simp [h]

theorem directed_turned (hk : Paged g E b columns) (back : Bool) :
    ∀ o ∈ (b.turned back).orders, o.direction ≠ "" := by
  cases back with
  | false =>
    intro o ho
    rcases hk.directed o ho with h | h <;> simp [h]
  | true =>
    intro o ho
    obtain ⟨q, hq, rfl⟩ := mem_map.mp ho
    rcases hk.directed q hq with h | h <;> simp [h]

theorem orders_turned_ne (hk : Paged g E b columns) (back : Bool) : (b.turned back).orders ≠ [] := by
  intro h
  have := map_text_turned (b := b) id back
  rw [h] at this
  exact hk.ordered (map_eq_nil_iff.mp this.symm)

theorem ensureOrder_eq (hb : RowQuery b) (hk : Paged g E b columns) (back : Bool) :
    ensureOrder b back = .ok (b.turned back, (b.turned back).orders) := by
  have hunion : (b.turned back).unionOrders = [] := by
    cases back <;> simp [Builder.turned, hb.unionOrders, reverseDirections]
  have hfilter : (b.turned back).orders.filter (fun o => o.direction ≠ "") = (b.turned back).orders :=
    filter_eq_self.mpr fun o ho => by simpa using directed_turned hk back o ho
  have hall : (if (b.turned back).unionOrders = [] then (b.turned back).orders else (b.turned back).unionOrders).filter
      (fun o => o.direction ≠ "") = (b.turned back).orders := by rw [if_pos hunion, hfilter]
  rw [ensureOrder, if_neg fun h => hk.ordered h.1]
  have hturned : (if back = true then
      { b with orders := reverseDirections b.orders, unionOrders := reverseDirections b.unionOrders } else b) = b.turned back :=
    rfl
  dsimp only
  rw [hturned, hall]
  cases h : (b.turned back).orders with
  | nil => exact absurd h (orders_turned_ne hk back)
  | cons => rfl

theorem lookup_map_text (f : String → A) : ∀ {os : List Order}, o ∈ os →
    (os.map fun q => (q.text, f q.text)).lookup o.text = some (f o.text) := by
  intro os
  induction os with
  | nil => intro h; cases h
  | cons q _ ih =>
    intro h
    rw [map_cons, lookup_cons]
    by_cases hq : o.text = q.text
    · simp [hq]
    · rw [beq_eq_false_iff_ne.mpr hq]
      rcases mem_cons.mp h with rfl | h
      · exact absurd rfl hq
      · exact ih h

variable (columns) in
theorem parameter_cursorAt (r : E.Row) (back : Bool) (ho : o ∈ (b.turned back).orders) :
    (E.cursorAt b columns r back).parameter o.text
      = .ok (E.stringify (E.record (b.columns.getD (calledColumns columns)) r (pluckName o.text))) := by
  have := lookup_map_text (fun name => E.stringify (E.record (b.columns.getD (calledColumns columns)) r (pluckName name))) ho
  rw [Cursor.parameter, Engine.cursorAt, ← parameters_turned _ back, Engine.parameters, this]

variable {r : E.Row}

theorem Paged.value_ne_bot (hk : Paged g E b columns) (hr : r ∈ E.matching g b)
    (ho : o ∈ b.orders) : E.value r (b.originalColumn g o.text) ≠ ⊥ := by
  rw [hk.survive r hr o ho]
  exact WithBot.coe_ne_bot

theorem Paged.bound_eq (hk : Paged g E b columns) (hx : x ∈ E.matching g b) :
    (b.orders.map fun o => (E.read (E.stringify (E.record (b.columns.getD (calledColumns columns)) x (pluckName o.text))) :
      WithBot V)) = E.key g b x :=
  map_congr_left fun o ho => by rw [hk.returned x hx o ho, ← hk.survive x hx o ho]

theorem key_congr {b b' : Builder Tree} (ho : b'.orders = b.orders) (hc : b'.columns = b.columns) :
    E.key g b' = E.key g b := by
  funext r
  simp only [Engine.key, Builder.originalColumn, ho, hc]

/-! ### One page -/

variable {perPage : Nat}

theorem newCursorPage_count (hp : 1 ≤ perPage) (n : Nat) (cursor : Option Cursor)
    (key : Nat → List (String × String)) : (newCursorPage n perPage cursor key).count = min perPage n := by
  have hp' : ¬ perPage < 1 := by omega
  by_cases h : perPage < n <;> simp [newCursorPage, hp', h] <;> omega

variable {cursor : Option Cursor} {perPage n : Nat}

theorem newCursorPage_next (hp : 1 ≤ perPage)
    (hc : cursor.any (fun c => !c.pointsToNextItems) = false) (key : Nat → List (String × String)) :
    (newCursorPage n perPage cursor key).next
      = if perPage < n then some ⟨key (perPage - 1), true⟩ else none := by
  have hp' : ¬ perPage < 1 := by omega
  by_cases h : perPage < n
  · have hpos : 0 < perPage := hp
    simp [newCursorPage, hp', h, hc, hpos]
  · simp [newCursorPage, hp', h, hc]

theorem newCursorPage_previous (hp : 1 ≤ perPage) (hn : 0 < n)
    (ps : List (String × String)) (key : Nat → List (String × String)) :
    (newCursorPage n perPage (some ⟨ps, true⟩) key).previous = some ⟨key 0, false⟩ := by
  have hp' : ¬ perPage < 1 := by omega
  have hpos : 0 < perPage := hp
  by_cases h : perPage < n
  · simp [newCursorPage, hp', h, hpos]
  · simp [newCursorPage, hp', h, hn]

/-- The rows of a page. -/
theorem pageOf_rows (hp : 1 ≤ perPage) (cursor : Option Cursor) (l : List E.Row) :
    (E.pageOf b columns perPage cursor (l.take (perPage + 1))).1
      = if cursor.any (fun c => !c.pointsToNextItems) then (l.take perPage).reverse else l.take perPage := by
  have hcount : ∀ key, (l.take (perPage + 1)).take
      (newCursorPage (l.take (perPage + 1)).length perPage cursor key).count = l.take perPage := by
    intro key
    rw [newCursorPage_count hp, take_take, length_take]
    rcases Nat.lt_or_ge perPage l.length with h | h
    · rw [show min (min perPage (min (perPage + 1) l.length)) (perPage + 1) = perPage by omega]
    · rw [take_of_length_le (by omega), take_of_length_le h]
  simp only [Engine.pageOf, hcount]
  rfl

variable (b columns cursor) in
/-- Going forward, the next cursor is at the last row of the page, when there are more. -/
theorem pageOf_next (hp : 1 ≤ perPage)
    (hc : cursor.any (fun c => !c.pointsToNextItems) = false) (l : List E.Row) :
    (l.length ≤ perPage ∧ (E.pageOf b columns perPage cursor (l.take (perPage + 1))).2.next = none) ∨
    ∃ a y c, l = a ++ y :: c ∧ a.length + 1 = perPage ∧ c ≠ [] ∧
      (E.pageOf b columns perPage cursor (l.take (perPage + 1))).2.next = some (E.cursorAt b columns y false) := by
  rcases Nat.lt_or_ge perPage l.length with h | h
  · right
    have hlen : perPage - 1 < l.length := by omega
    have hmore : perPage < (l.take (perPage + 1)).length := by rw [length_take]; omega
    have hlast : (l.take (perPage + 1))[perPage - 1]? = some l[perPage - 1] := by
      rw [getElem?_take_of_lt (by omega), getElem?_eq_getElem hlen]
    refine ⟨l.take (perPage - 1), l[perPage - 1], l.drop perPage, ?_, ?_, ?_, ?_⟩
    · have := drop_eq_getElem_cons hlen
      rw [show perPage - 1 + 1 = perPage by omega] at this
      rw [← this, take_append_drop]
    · rw [length_take]; omega
    · rw [ne_eq, drop_eq_nil_iff]; omega
    · simp only [Engine.pageOf]
      rw [newCursorPage_next hp hc, if_pos hmore, hlast]
      rfl
  · left
    have hmore : ¬ perPage < (l.take (perPage + 1)).length := by rw [length_take]; omega
    refine ⟨h, ?_⟩
    simp only [Engine.pageOf]
    rw [newCursorPage_next hp hc, if_neg hmore]

/-- The previous cursor of a page behind a cursor is at its first row. -/
theorem pageOf_previous (hp : 1 ≤ perPage) (x f : E.Row) (l : List E.Row) :
    (E.pageOf b columns perPage (some (E.cursorAt b columns x false)) ((f :: l).take (perPage + 1))).2.previous
      = some (E.cursorAt b columns f true) := by
  simp only [Engine.pageOf]
  rw [Engine.cursorAt, Bool.not_false, newCursorPage_previous hp (by simp)]
  rfl

/-! ### What a page is read from -/

variable [LinearOrder V]

variable (g E b) in
/-- The matching rows in order. -/
def Engine.ordered : List E.Row := sorted (Engine.directions b) (E.key g b) (E.matching g b)

variable (g E b) in
/-- The rows on one side of a row, the nearest one first; the early ones are on both sides. -/
def Engine.side (back : Bool) (r : E.Row) : List E.Row :=
  if back then
    ((E.ordered g b).filter fun s => E.early g b s || before (Engine.directions b) (E.key g b s) (E.key g b r)).reverse
  else
    (E.ordered g b).filter fun s => E.early g b s || before (Engine.directions b) (E.key g b r) (E.key g b s)

theorem mem_ordered : r ∈ E.ordered g b ↔ r ∈ E.matching g b :=
  (perm_insertionSort _ _).mem_iff

theorem Paged.strict (hk : Paged g E b columns) :
    Strict (Engine.directions b) (E.key g b) (E.ordered g b) :=
  Order.strict_sorted length_key hk.unique

/-- `addCursorConditions` adds one group, and it says what the cursor bounds. -/
theorem addCursorConditions_spec (hE : Compares g E) {b : Builder Tree} (hunions : b.unions = [])
    (hne : b.orders ≠ []) {cursor : Cursor} {value : Order → String}
    (hpar : ∀ q ∈ b.orders, cursor.parameter q.text = .ok (value q)) :
    ∃ n ts bindings, addCursorConditions g b cursor b.orders
        = .ok (({ b with bindings } : Builder Tree).addNestedWhereQuery .and (.node n)) ∧
      Says g E n ts ∧
      ∀ r, (∀ q ∈ b.orders, E.value r (b.originalColumn g q.text) ≠ ⊥) →
        evalClauses id (ts r)
          = some (before (Engine.directions b) (Cursor.bound E value b.orders) (E.key g b r)) := by
  obtain ⟨o, rest, hos⟩ := exists_cons_of_ne_nil hne
  rw [hos] at hpar
  obtain ⟨n, ts, hgroup, hsays, htruth⟩ :=
    cursorGroup_says hE b cursor value rest o (b.originalColumn g o.text) b.forNestedWhere hpar rfl rfl
  refine ⟨n, ts, b.bindings.add .union [], ?_, hsays, fun r hr => ?_⟩
  · have hmembers : cursorUnions g b cursor (o :: rest) b.unions = .ok (b.unions, []) := by
      rw [hunions]; rfl
    rw [addCursorConditions, hos, head?_cons, Option.map_some, Option.getD_some, hgroup, hmembers]
    rfl
  · rw [Engine.directions, Engine.key, hos]
    refine htruth r fun c hc => ?_
    obtain ⟨q, hq, rfl⟩ := mem_map.mp (show c ∈ (o :: rest).map (fun q => b.originalColumn g q.text) from hc)
    exact hr q (hos ▸ hq)

/-- The builder bounded at a row: the early rows pass, and of the others those behind the row. -/
theorem bounded_spec (hE : Compares g E) (hb : RowQuery b) (hk : Paged g E b columns)
    (hx : x ∈ E.matching g b) (back : Bool) :
    ∃ b', Engine.bounded g (b.turned back) (b.turned back).orders (some (E.cursorAt b columns x back)) = .ok b' ∧
      b'.err = none ∧ b'.unions = [] ∧ b'.orders = (b.turned back).orders ∧
      b'.columns = (b.turned back).columns ∧ b'.offset = b.offset ∧
      E.matching g b' = (E.matching g b).filter fun r => E.early g b r ||
        before (Engine.directions (b.turned back)) (E.key g b x) (E.key g b r) := by
  have hunions : (b.turned back).unions = [] := by cases back <;> exact hb.unions
  have herr : (b.turned back).err = none := by cases back <;> exact hb.err
  have hkey : E.key g ((b.turned back).setBindings [] .union) = E.key g b :=
    (key_congr rfl rfl).trans (key_turned back)
  obtain ⟨n, _, bindings, hadd, hsays, htruth⟩ := addCursorConditions_spec hE
    (b := (b.turned back).setBindings [] .union) hunions (orders_turned_ne hk back)
    fun q hq => parameter_cursorAt columns x back hq
  have hbound : Cursor.bound E (fun q => E.stringify (E.record (b.columns.getD (calledColumns columns)) x (pluckName q.text)))
      (b.turned back).orders = E.key g b x := by
    rw [← hk.bound_eq hx]
    exact map_text_turned (fun name =>
      (E.read (E.stringify (E.record (b.columns.getD (calledColumns columns)) x (pluckName name))) : WithBot V)) back
  refine ⟨_, hadd, ?_, ?_, ?_, ?_, ?_, ?_⟩
  · rw [addNestedWhereQuery_eq hsays]; exact herr
  · rw [addNestedWhereQuery_eq hsays]; exact hunions
  · rw [addNestedWhereQuery_eq hsays]; rfl
  · rw [addNestedWhereQuery_eq hsays]; rfl
  · rw [addNestedWhereQuery_eq hsays]; cases back <;> rfl
  · rw [Engine.matching, Engine.matching, filter_filter]
    refine filter_congr fun r hr => ?_
    have hearly : E.early g { (b.turned back).setBindings [] .union with bindings } r = E.early g b r := by
      cases back <;> rfl
    have hpasses : E.passes g { (b.turned back).setBindings [] .union with bindings } r = E.passes g b r := by
      cases back <;> rfl
    rw [passes_nested hsays, hearly, hpasses]
    cases hp : E.passes g b r with
    | false =>
      have : E.early g b r = false := by
        rw [Bool.eq_false_iff]
        intro h
        rw [passes_of_early h] at hp
        cases hp
      simp [this]
    | true =>
      have hmem : r ∈ E.matching g b := mem_filter.mpr ⟨hr, hp⟩
      rw [htruth r ?_, hkey]
      · show (_ || (true && (some (before (Engine.directions (b.turned back))
          (Cursor.bound E _ (b.turned back).orders) _) == some true))) = _
        rw [hbound]
        simp
      · intro q hq
        have hbot : E.value r (Builder.originalColumn g ((b.turned back).setBindings [] .union) q.text)
            ∈ E.key g ((b.turned back).setBindings [] .union) r := mem_map_of_mem hq
        rw [hkey] at hbot
        obtain ⟨o, ho, heq⟩ := mem_map.mp hbot
        rw [← heq]
        exact hk.value_ne_bot hmem ho

theorem get_limited {b : Builder Tree} (herr : b.err = none) (hunions : b.unions = []) (perPage : Nat) :
    E.get g (b.setLimit (perPage + 1))
      = .ok (((sorted (Engine.directions b) (E.key g b) (E.matching g b)).drop (b.offset.getD 0)).take
          (perPage + 1)) := by
  have hpos : ¬ ((perPage : Int) + 1 < 0) := by omega
  have hnat : ((perPage : Int) + 1).toNat = perPage + 1 := by omega
  rw [Builder.setLimit, if_neg hpos, hunions, isEmpty_nil, if_pos rfl, hnat, Engine.get]
  simp only [herr]
  rfl

/-- **A page behind a cursor** is read from one side of the row. -/
theorem cursorPaginate_side (hE : Compares g E) (hb : RowQuery b) (hk : Paged g E b columns)
    (hx : x ∈ E.matching g b) (perPage : Nat) (back : Bool) :
    E.cursorPaginate g b perPage (some (E.cursorAt b columns x back)) columns
      = .ok (E.pageOf b columns perPage (some (E.cursorAt b columns x back))
          (((E.side g b back x).drop (b.offset.getD 0)).take (perPage + 1))) := by
  obtain ⟨b', hbounded, herr, hunions, horders, hcolumns, hoffset, hmatching⟩ := bounded_spec hE hb hk hx back
  have hread : sorted (Engine.directions b') (E.key g b') (E.matching g b') = E.side g b back x := by
    rw [hmatching, key_congr horders hcolumns, key_turned, Engine.directions, horders,
      ← Engine.directions, directions_turned hk]
    cases back with
    | false => exact Order.sorted_filter length_key hk.unique _
    | true =>
      simp only [if_true, Order.before_flip]
      rw [Order.sorted_flip length_key (hk.unique.sublist filter_sublist),
        Order.sorted_filter length_key hk.unique]
      rfl
  have hback : (some (E.cursorAt b columns x back)).any (fun c => !c.pointsToNextItems) = back := by
    simp [Engine.cursorAt]
  rw [Engine.cursorPaginate, hback, ensureOrder_eq hb hk]
  simp only [Except.bind]
  rw [hbounded]
  simp only [get_limited herr hunions, Except.map, hread, hoffset, hcolumns, columns_turned, parameters_turned]
  rfl

theorem cursorPaginate_first (hb : RowQuery b) (hk : Paged g E b columns) (perPage : Nat) :
    E.cursorPaginate g b perPage none columns
      = .ok (E.pageOf b columns perPage none
          (((E.ordered g b).drop (b.offset.getD 0)).take (perPage + 1))) := by
  rw [Engine.cursorPaginate, Option.any_none, ensureOrder_eq hb hk]
  simp only [Except.bind, Engine.bounded]
  rw [get_limited (b := b.turned false) hb.err hb.unions]
  rfl

/-! ### The walk -/

variable (g E b columns) in
/-- The second page's previous cursor gives the rows of the first. -/
def Engine.Returns (perPage : Nat) (p q : List E.Row × CursorPage) : Prop :=
  ∃ c page, q.2.previous = some c ∧ E.cursorPaginate g b perPage (some c) columns = .ok (p.1, page)

variable (g E b columns) in
/-- The walk from the first page on ends, its pages are the matching rows in order, and each page is
found again from the one behind it. -/
def Engine.Partitions (perPage : Nat) : Prop :=
  ∃ fuel pages, E.walk g b perPage columns fuel none = some pages ∧
    pages.flatMap Prod.fst = E.ordered g b ∧ pages.IsChain (E.Returns g b columns perPage)

/-- One page that holds all the rows is the whole walk. -/
theorem partitions_of_page (hp : 1 ≤ perPage) (hle : (E.ordered g b).length ≤ perPage)
    (hfirst : E.cursorPaginate g b perPage none columns
      = .ok (E.pageOf b columns perPage none ((E.ordered g b).take (perPage + 1)))) :
    E.Partitions g b columns perPage := by
  rcases pageOf_next b columns none hp rfl (E.ordered g b) with ⟨-, hnext⟩ | ⟨a, y, c, hl, _, hc, -⟩
  · refine ⟨1, [E.pageOf b columns perPage none ((E.ordered g b).take (perPage + 1))], ?_, ?_,
      List.IsChain.singleton _⟩
    · simp only [Engine.walk, hfirst, hnext]
    · rw [flatMap_singleton, pageOf_rows hp, Option.any_none, if_neg Bool.false_ne_true,
        take_of_length_le hle]
  · have := length_pos_iff.mpr hc
    rw [hl, length_append, length_cons] at hle
    omega

section Whole

variable (hearly : ∀ r ∈ E.ordered g b, E.early g b r = false) (hk : Paged g E b columns)
include hearly hk

variable {a c : List E.Row}

theorem side_eq {x : E.Row} (h : E.ordered g b = a ++ x :: c) (back : Bool) :
    E.side g b back x = if back then a.reverse else c := by
  have hstrict := hk.strict
  have hfilter : ∀ p : E.Row → Bool, ((E.ordered g b).filter fun s => E.early g b s || p s) = (E.ordered g b).filter p :=
    fun p => filter_congr fun s hs => by rw [hearly s hs, Bool.false_or]
  rw [Engine.side, hfilter, hfilter]
  rw [h] at hstrict ⊢
  rw [Order.filter_after hstrict, Order.filter_before hstrict]

variable (hE : Compares g E) (hb : RowQuery b) (hoffset : b.offset.getD 0 = 0) {perPage : Nat}
  (hp : 1 ≤ perPage)
include hE hb hoffset hp

/-- A page is found again from the row behind it. -/
theorem page_before {a page l : List E.Row} {f : E.Row} (h : E.ordered g b = a ++ page ++ f :: l)
    (hlen : page.length = perPage) :
    ∃ p, E.cursorPaginate g b perPage (some (E.cursorAt b columns f true)) columns = .ok (page, p) := by
  have hf : f ∈ E.matching g b := mem_ordered.mp (by rw [h]; simp)
  refine ⟨_, (cursorPaginate_side hE hb hk hf perPage true).trans (congrArg Except.ok (Prod.ext ?_ rfl))⟩
  have hrev : (page.reverse ++ a.reverse).take perPage = page.reverse := by
    rw [← hlen, ← length_reverse, take_left]
  rw [pageOf_rows hp, side_eq hearly hk h, if_pos rfl, hoffset, drop_zero, reverse_append, hrev,
    reverse_reverse]
  rfl

/-- **The walk from a cursor**, by induction on the pages: it visits the rows that are left, and
its pages are found again from behind. -/
theorem walk_reads : ∀ (fuel : Nat) (cursor : Option Cursor) (a c : List E.Row),
    E.ordered g b = a ++ c → cursor.any (fun c => !c.pointsToNextItems) = false →
    E.cursorPaginate g b perPage cursor columns
      = .ok (E.pageOf b columns perPage cursor (c.take (perPage + 1))) → c.length < fuel →
    ∃ rest, E.walk g b perPage columns fuel cursor
        = some (E.pageOf b columns perPage cursor (c.take (perPage + 1)) :: rest) ∧
      (E.pageOf b columns perPage cursor (c.take (perPage + 1)) :: rest).flatMap Prod.fst = c ∧
      (E.pageOf b columns perPage cursor (c.take (perPage + 1)) :: rest).IsChain
        (E.Returns g b columns perPage) := by
  intro fuel
  induction fuel with
  | zero => intro cursor a c _ _ _ h; exact absurd h (Nat.not_lt_zero _)
  | succ _ ih =>
    intro cursor a c hac hfwd hread hfuel
    have hrows : (E.pageOf b columns perPage cursor (c.take (perPage + 1))).1 = c.take perPage := by
      rw [pageOf_rows hp, hfwd]; rfl
    rcases pageOf_next b columns cursor hp hfwd c with ⟨hle, hnext⟩ | ⟨init, y, l, hc, hinit, hl, hnext⟩
    · refine ⟨[], ?_, ?_, List.IsChain.singleton _⟩
      · simp only [Engine.walk, hread, hnext]
      · rw [flatMap_singleton, hrows, take_of_length_le hle]
    · -- The page ends at `y`, and the walk goes on behind it.
      have hpage : c.take perPage = init ++ [y] := by
        have hlen : (init ++ [y]).length = perPage := by simpa using hinit
        rw [hc, append_cons, ← hlen, take_left]
      have hordered : E.ordered g b = (a ++ init) ++ y :: l := by rw [hac, hc, append_assoc]
      have hy : y ∈ E.matching g b := mem_ordered.mp (by rw [hordered]; simp)
      have hrest := cursorPaginate_side hE hb hk hy perPage false
      rw [side_eq hearly hk hordered, if_neg Bool.false_ne_true, hoffset, drop_zero] at hrest
      obtain ⟨rest, hwalk, hflat, hchain⟩ := ih (some (E.cursorAt b columns y false)) (a ++ init ++ [y]) l
        (by rw [hordered]; simp) (by simp [Engine.cursorAt]) hrest (by rw [hc] at hfuel; simp at hfuel; omega)
      refine ⟨_, ?_, ?_, isChain_cons_cons.mpr ⟨?_, hchain⟩⟩
      · simp only [Engine.walk, hread, hnext, hwalk]
        rfl
      · rw [flatMap_cons, hflat, hrows, hpage, hc, append_assoc]
        rfl
      · obtain ⟨f, l', rfl⟩ := exists_cons_of_ne_nil hl
        obtain ⟨p, hback⟩ := page_before hearly hk hE hb hoffset hp
          (show E.ordered g b = a ++ (init ++ [y]) ++ f :: l' by rw [hordered]; simp) (by simpa using hinit)
        exact ⟨_, p, pageOf_previous hp y f l', by rw [hrows, hpage]; exact hback⟩

end Whole

/-! ### Where the walk fails -/

theorem mem_matching_of_side {back : Bool} (h : r ∈ E.side g b back x) : r ∈ E.matching g b := by
  rw [← mem_ordered]
  cases back with
  | false => exact mem_of_mem_filter h
  | true => exact mem_of_mem_filter (mem_reverse.mp h)

variable (g E b columns) in
/-- The cursors of a walk: none, or one that points forward from a matching row. -/
def Engine.Walks : Option Cursor → Prop
  | none => True
  | some c => ∃ x ∈ E.matching g b, c = E.cursorAt b columns x false

section Converse

variable (hE : Compares g E) (hb : RowQuery b) (hk : Paged g E b columns) {perPage : Nat} (hp : 1 ≤ perPage)
include hE hb hk hp

omit hp in
/-- What a walk reads at one of its cursors. -/
theorem walks_read (perPage : Nat) {cursor : Option Cursor} (hc : E.Walks g b columns cursor) :
    ∃ l : List E.Row, (∀ r ∈ l, r ∈ E.matching g b) ∧ cursor.any (fun c => !c.pointsToNextItems) = false ∧
      E.cursorPaginate g b perPage cursor columns
        = .ok (E.pageOf b columns perPage cursor (l.take (perPage + 1))) := by
  cases cursor with
  | none =>
    exact ⟨_, fun r hr => mem_ordered.mp (mem_of_mem_drop hr), rfl, cursorPaginate_first hb hk perPage⟩
  | some =>
    obtain ⟨x, hx, rfl⟩ := hc
    exact ⟨_, fun r hr => mem_matching_of_side (mem_of_mem_drop hr), by simp [Engine.cursorAt],
      cursorPaginate_side hE hb hk hx perPage false⟩

/-- A walk is one page, or its last page stands behind another one. -/
theorem walk_last : ∀ (fuel : Nat) (cursor : Option Cursor) (pages : List (List E.Row × CursorPage)),
    E.Walks g b columns cursor → E.walk g b perPage columns fuel cursor = some pages →
    ∃ q rest, pages = q :: rest ∧ E.cursorPaginate g b perPage cursor columns = .ok q ∧
      ((rest = [] ∧ q.2.next = none) ∨ q.2.next ≠ none ∧ ∃ init p l, pages = init ++ [p, l] ∧
        l.2.next = none ∧ ∃ x ∈ E.matching g b, E.cursorPaginate g b perPage (some (E.cursorAt b columns x false)) columns = .ok l) := by
  intro fuel
  induction fuel with
  | zero => intro cursor pages _ h; cases h
  | succ _ ih =>
    intro cursor pages hc h
    obtain ⟨l, hl, hfwd, hread⟩ := walks_read hE hb hk perPage hc
    simp only [Engine.walk, hread] at h
    rcases pageOf_next b columns cursor hp hfwd l with ⟨-, hnext⟩ | ⟨init, y, c, rfl, -, -, hnext⟩
    · rw [hnext] at h
      cases h
      exact ⟨_, [], rfl, hread, .inl ⟨rfl, hnext⟩⟩
    · rw [hnext] at h
      obtain ⟨rest, hrest, rfl⟩ := Option.map_eq_some_iff.mp h
      have hy : y ∈ E.matching g b := hl y (by simp)
      refine ⟨_, rest, rfl, hread, .inr ⟨by rw [hnext]; exact Option.some_ne_none _, ?_⟩⟩
      obtain ⟨q, _, rfl, hq, ⟨rfl, hnone⟩ | ⟨-, init', p, l', heq, hnone, hx⟩⟩ :=
        ih _ rest (show E.Walks g b columns (some _) from ⟨y, hy, rfl⟩) hrest
      · exact ⟨[], _, q, rfl, hnone, y, hy, hq⟩
      · exact ⟨_ :: init', p, l', by rw [heq]; rfl, hnone, hx⟩

/-- An offset drops rows that are never read. -/
theorem offset_of_partitions (h : E.Partitions g b columns perPage) (hne : E.matching g b ≠ []) :
    b.offset.getD 0 = 0 := by
  obtain ⟨fuel, pages, hwalk, hflat, -⟩ := h
  obtain ⟨q, _, rfl, hq, hlast⟩ := walk_last hE hb hk hp fuel none pages trivial hwalk
  rw [cursorPaginate_first hb hk, Except.ok.injEq] at hq
  have hstrict := hk.strict
  have hrows : q.1 = ((E.ordered g b).drop (b.offset.getD 0)).take perPage := by
    rw [← hq, pageOf_rows hp]; rfl
  rw [flatMap_cons, hrows] at hflat
  cases hd : (E.ordered g b).drop (b.offset.getD 0) with
  | nil =>
    have hnext : q.2.next = none := by
      rcases pageOf_next b columns none hp rfl ([] : List E.Row) with ⟨-, hnext⟩ | ⟨_, _, _, h, -⟩
      · rw [← hq, hd]; exact hnext
      · cases (append_eq_nil_iff.mp h.symm).2
    rcases hlast with ⟨rfl, -⟩ | ⟨hsome, -⟩
    · rw [hd] at hflat
      obtain ⟨r, hr⟩ := exists_mem_of_ne_nil _ hne
      rw [← mem_ordered, ← hflat] at hr
      simp at hr
    · exact absurd hnext hsome
  | cons f =>
    obtain ⟨t, ht⟩ : ∃ t, E.ordered g b = f :: t := by
      rw [hd, show perPage = perPage - 1 + 1 by omega, take_succ_cons] at hflat
      exact ⟨_, hflat.symm⟩
    rw [ht] at hd hstrict
    by_contra ho
    rw [show b.offset.getD 0 = b.offset.getD 0 - 1 + 1 by omega, drop_succ_cons] at hd
    have hf : f ∈ t := mem_of_mem_drop (hd ▸ mem_cons_self)
    have := (pairwise_cons.mp hstrict).1 f hf
    rw [Order.before_irrefl] at this
    cases this

/-- **An early row is on the last page**, and from there it is read again in front of it. -/
theorem early_of_partitions (h : E.Partitions g b columns perPage) (hoffset : b.offset.getD 0 = 0)
    (hlong : perPage < (E.matching g b).length) {e : E.Row} (he : e ∈ E.matching g b) :
    E.early g b e = false := by
  rw [Bool.eq_false_iff]
  intro hearly
  obtain ⟨fuel, pages, hwalk, hflat, hchain⟩ := h
  obtain ⟨q, _, rfl, hq, ⟨-, hnone⟩ | ⟨-, _, p, l, heq, hnone, x, hx, hl⟩⟩ :=
    walk_last hE hb hk hp fuel none pages trivial hwalk
  · -- One page does not hold the rows.
    rw [cursorPaginate_first hb hk, Except.ok.injEq, hoffset, drop_zero] at hq
    have hlen : (E.ordered g b).length = (E.matching g b).length :=
      (perm_insertionSort _ _).length_eq
    rcases pageOf_next b columns none hp rfl (E.ordered g b) with ⟨hle, -⟩ | ⟨_, _, _, -, -, -, hnext⟩
    · omega
    · rw [hq, hnone] at hnext
      cases hnext
  · rw [cursorPaginate_side hE hb hk hx, Except.ok.injEq, hoffset, drop_zero] at hl
    have hfwd : (some (E.cursorAt b columns x false)).any (fun c => !c.pointsToNextItems) = false := by
      simp [Engine.cursorAt]
    have hle : (E.side g b false x).length ≤ perPage := by
      rcases pageOf_next b columns _ hp hfwd (E.side g b false x) with
        ⟨hle, -⟩ | ⟨_, _, _, -, -, -, hnext⟩
      · exact hle
      · rw [hl, hnone] at hnext
        cases hnext
    have hel : e ∈ l.1 := by
      rw [← hl, pageOf_rows hp, hfwd, if_neg Bool.false_ne_true, take_of_length_le hle]
      exact mem_filter.mpr ⟨mem_ordered.mpr he, by rw [hearly, Bool.true_or]⟩
    obtain ⟨z, hz, hez⟩ : ∃ z ∈ p.1, z = e ∨ before (Engine.directions b) (E.key g b e) (E.key g b z) := by
      rw [heq] at hchain
      obtain ⟨c, _, hprev, hback⟩ := isChain_cons_cons.mp (isChain_append.mp hchain).2.1 |>.1
      obtain ⟨f, side, hside⟩ : ∃ f side, E.side g b false x = f :: side :=
        exists_cons_of_ne_nil fun h => by
          rw [← hl, pageOf_rows hp, h] at hel
          simp at hel
      rw [← hl, hside, pageOf_previous hp, Option.some.injEq] at hprev
      have hf : f ∈ E.matching g b := mem_matching_of_side (hside ▸ mem_cons_self)
      rw [← hprev, cursorPaginate_side hE hb hk hf, Except.ok.injEq, hoffset, drop_zero] at hback
      have hp1 : p.1 = ((E.side g b true f).take perPage).reverse := by
        rw [← congrArg Prod.fst hback, pageOf_rows hp]
        rfl
      obtain ⟨z, zs, hrev, hez⟩ := Order.Strict.last (hk.strict.sublist filter_sublist)
        (mem_filter.mpr ⟨mem_ordered.mpr he, by rw [hearly, Bool.true_or]⟩ : e ∈ (E.ordered g b).filter fun s =>
          E.early g b s || before (Engine.directions b) (E.key g b s) (E.key g b f))
      refine ⟨z, ?_, hez⟩
      rw [hp1, show E.side g b true f = z :: zs from hrev, show perPage = perPage - 1 + 1 by omega,
        take_succ_cons]
      simp
    rw [heq, flatMap_append] at hflat
    have hstrict := hk.strict
    rw [← hflat] at hstrict
    have hze := (pairwise_append.mp (pairwise_append.mp hstrict).2.1).2.2 z hz e (by simpa using hel)
    rcases hez with rfl | hez
    · rw [Order.before_irrefl] at hze; cases hze
    · rw [Order.before_asymm hez] at hze; cases hze

end Converse

end Paged

/-! ### A table -/

/-- A table of numbers by the names of their columns, compared with a decimal text. -/
def tableEngine (g : Grammar) (rows : List (List (String × Nat))) : Engine Nat :=
  let cell (r : List (String × Nat)) (ts : List (Tok Val)) : WithBot Nat :=
    ((r.find? fun p => g.wrap (.name (.bare p.1)) = ts).map fun p => (p.2 : WithBot Nat)).getD ⊥
  let read (s : String) : Nat := (Text.parseUint 10 s.toList).getD 0
  { Row := List (String × Nat)
    rows
    value := fun r c => cell r (g.wrap (cursorColumn c))
    atom := fun ts r => match ts.reverse with
      | .param (.str s) :: .kw " " :: .op op :: .kw " " :: left => compared op (cell r left.reverse) (read s)
      | _ => none
    sub := fun _ _ _ _ => none
    computed := fun _ _ _ => none
    text := fun n => String.ofList (Nat.toDigits 10 n)
    read }

theorem compares_table (g : Grammar) (rows : List (List (String × Nat))) :
    Compares g (tableEngine g rows) := by
  intro c _ _ s r
  simp [tableEngine, infixToks]

/-- `where a = first or a = second order by id`. -/
def eitherQuery (g : Grammar) (first second : String) : Builder Tree :=
  let b : Builder Tree := { orders := [{ column := .name (.bare "id"), direction := "asc" }] }
  (b.addWhere g .and (.name (.bare "a")) "=" (.str first)).addWhere g .or (.name (.bare "a")) "=" (.str second)

theorem rowQuery_either (g : Grammar) (first second : String) : RowQuery (eitherQuery g first second) := by
  rw [eitherQuery, addWhere_comparison g ?_ .and _ (by simp), addWhere_comparison g ?_ .or _ (by simp)]
  · exact ⟨rfl, rfl, rfl, rfl, rfl, rfl, rfl, rfl, rfl⟩
  · rfl
  · rfl

def threeRows : Engine Nat :=
  tableEngine ⟨.postgres, "", [], true⟩
    [[("id", 3), ("a", 2)], [("id", 1), ("a", 1)], [("id", 2), ("a", 1)]]

instance : DecidableEq threeRows.Row := inferInstanceAs (DecidableEq (List (String × Nat)))

section Loop

variable {V : Type} [LinearOrder V] {E : Engine V} {g : Grammar} {b : Builder Tree} {perPage : Nat}
  {columns : List ColArg}

/-- A page whose next cursor is the one it was read at is read for ever. -/
theorem walk_of_loop {c : Cursor} {first page : List E.Row × CursorPage}
    (hfirst : E.cursorPaginate g b perPage none columns = .ok first) (hc : first.2.next = some c)
    (hpage : E.cursorPaginate g b perPage (some c) columns = .ok page) (hnext : page.2.next = some c) :
    ∀ fuel, E.walk g b perPage columns fuel none = none := by
  have hloop : ∀ fuel, E.walk g b perPage columns fuel (some c) = none := by
    intro fuel
    induction fuel with
    | zero => rfl
    | succ _ ih => simp only [Engine.walk, hpage, hnext, ih, Option.map_none]
  intro fuel
  cases fuel with
  | zero => rfl
  | succ => simp only [Engine.walk, hfirst, hc, hloop, Option.map_none]

end Loop

theorem ok_of_toOption {A B : Type} {x : Except A B} {y : B} (h : x.toOption = some y) : x = .ok y := by
  cases x with
  | error => cases h
  | ok => exact congrArg Except.ok (Option.some.inj h)

/-- `select a order by id`. -/
def unselected : Builder Tree where
  columns := some [.name (.bare "a")]
  orders := [{ column := .name (.bare "id"), direction := "asc" }]

end Hesape.Query
