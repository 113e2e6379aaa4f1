import Hesape.Query.Value

/-!
# The builder and its clauses

`Builder Q` is the state of a query under construction, `Q` being whatever stands for a
reference to another builder.  A builder reaches others from five places: a where or a
having clause with a query of its own, a join's condition, a union member and a
subquery recorded for scoping.

`Tree` ties the knot: a builder whose references are builders.  Every acyclic builder
graph unfolds into one.  Functions over a tree are written with `Tree.para`, which hands
each step the builder with every reference paired with what was computed for it, and
proved about with `Tree.ind`.
-/

namespace Hesape.Query

open Sql (Conn JoinKind)
open List

/-- The segments of the bindings, in the order of `bindingOrder`. -/
inductive Segment
  | select | «from» | join | «where» | groupBy | having | order | union | unionOrder
  deriving DecidableEq

abbrev Bindings := Segment → List Val

namespace Bindings

def empty : Bindings := fun _ => []

def set (b : Bindings) (s : Segment) (vs : List Val) : Bindings :=
  fun s' => if s' = s then vs else b s'

/-- `AddBinding`. -/
def add (b : Bindings) (s : Segment) (vs : List Val) : Bindings := b.set s (b s ++ vs)

/-- `GetBindings`: the segments one after the other. -/
def all (b : Bindings) : List Val :=
  b .select ++ b .from ++ b .join ++ b .where ++ b .groupBy ++ b .having ++ b .order ++ b .union
    ++ b .unionOrder

end Bindings

/-- The options of a full-text clause. -/
structure FullTextOptions where
  mode : String := ""
  expanded : Bool := false
  language : String := ""
  vector : Bool := false

/-- One where clause.  Which fields mean anything is decided by `typ`. -/
structure Where (Q : Type) where
  typ : String
  column : ColArg := default
  columns : List ColArg := []
  first : ColArg := default
  second : ColArg := default
  operator : String := ""
  value : Val := .null
  values : List Val := []
  /-- the values of a `betweenColumns` clause, which are columns -/
  valueColumns : List ColArg := []
  boolean : Conn := .and
  not : Bool := false
  sql : String := ""
  query : Option Q := none
  caseSensitive : Bool := false
  options : FullTextOptions := {}

structure Having (Q : Type) where
  typ : String
  column : ColArg := default
  operator : String := ""
  value : Val := .null
  values : List Val := []
  boolean : Conn := .and
  not : Bool := false
  sql : String := ""
  /-- the values written beside `sql` -/
  args : List Val := []
  query : Option Q := none

structure Order where
  column : ColArg := default
  direction : String := ""
  sql : Option (String × List Val) := none

structure Union (Q : Type) where
  query : Q
  all : Bool

/-- A join and the builder its condition is written on. -/
structure JoinClause (Q : Type) where
  builder : Q
  kind : JoinKind
  table : TableArg
  lateral : Bool := false

inductive PendingKind
  | select | «from» | join
  deriving DecidableEq

/-- A subquery compiled into a clause, kept so that it can be scoped when the statement
runs. -/
structure PendingSub (Q : Type) where
  query : Q
  as : String
  kind : PendingKind
  index : Nat
  segment : Segment
  offset : Nat
  length : Nat
  prefixed : Bool := false

structure Aggregate where
  function : String
  columns : List ColArg

structure IndexHint where
  typ : String
  index : String

structure GroupLimit where
  value : Nat
  column : Column

inductive Distinct
  | plain
  | on (columns : List ColArg)

inductive Lock
  | flag (forUpdate : Bool)
  | text (s : String)

inductive Err
  | invalidOperator (operator : String)
  | invalidDirection (direction : String)
  | callbacksDidNotSettle
  | bindingsMoved (kind : PendingKind)
  | noTenant
  | readOnlyGrant
  | noTable
  | message (s : String)

structure Builder (Q : Type) where
  bindings : Bindings := Bindings.empty
  /-- `none` is "not selected yet" -/
  columns : Option (List ColArg) := none
  wheres : List (Where Q) := []
  joins : List (JoinClause Q) := []
  groups : List ColArg := []
  havings : List (Having Q) := []
  orders : List Order := []
  unions : List (Union Q) := []
  unionOrders : List Order := []
  unionLimit : Option Nat := none
  unionOffset : Option Nat := none
  /-- registered before-query callbacks, by name -/
  callbacks : List Nat := []
  subqueries : List (PendingSub Q) := []
  table : Option TableArg := none
  distinct : Option Distinct := none
  indexHint : Option IndexHint := none
  limit : Option Nat := none
  groupLimit : Option GroupLimit := none
  offset : Option Nat := none
  lock : Option Lock := none
  aggregate : Option Aggregate := none
  timeout : Option Nat := none
  err : Option Err := none

section Map

variable {A B : Type} (f : A → B)

def Where.map (w : Where A) : Where B := { w with query := w.query.map f }

def Having.map (h : Having A) : Having B := { h with query := h.query.map f }

def Union.map (u : Union A) : Union B := { u with query := f u.query }

def JoinClause.map (j : JoinClause A) : JoinClause B := { j with builder := f j.builder }

def PendingSub.map (p : PendingSub A) : PendingSub B := { p with query := f p.query }

def Builder.map (b : Builder A) : Builder B :=
  { b with
    wheres := b.wheres.map (Where.map f)
    joins := b.joins.map (JoinClause.map f)
    havings := b.havings.map (Having.map f)
    unions := b.unions.map (Union.map f)
    subqueries := b.subqueries.map (PendingSub.map f) }

end Map

theorem Where.map_map {A B C : Type} (f : A → B) (h : B → C) (w : Where A) :
    (w.map f).map h = w.map fun a => h (f a) := by
  cases hq : w.query <;> simp [Where.map, hq]

theorem Where.map_eq_self {A : Type} {f : A → A} (w : Where A) (hf : ∀ a, f a = a) :
    w.map f = w := by
  obtain rfl : f = id := funext hf
  simp [Where.map]

theorem Builder.map_map {A B C : Type} (f : A → B) (h : B → C) (b : Builder A) :
    (b.map f).map h = b.map fun a => h (f a) := by
  simp only [Builder.map, List.map_map]
  congr 1
  · exact List.map_congr_left fun w _ => w.map_map f h
  · exact List.map_congr_left fun w _ => by cases hq : w.query <;> simp [Having.map, hq]

/-- Replacing every reference by itself changes nothing. -/
theorem Builder.map_eq_self {A : Type} {f : A → A} (b : Builder A) (hf : ∀ a, f a = a) :
    b.map f = b := by
  obtain rfl : f = id := funext hf
  have hw : (Where.map id : Where A → Where A) = id := funext fun w => w.map_eq_self fun _ => rfl
  have hh : (Having.map id : Having A → Having A) = id := by
    funext w; simp [Having.map]
  have hj : (JoinClause.map id : JoinClause A → JoinClause A) = id := rfl
  have hu : (Union.map id : Union A → Union A) = id := rfl
  have hs : (PendingSub.map id : PendingSub A → PendingSub A) = id := rfl
  simp only [Builder.map, hw, hh, hj, hu, hs, map_id]

/-- The builders a builder refers to. -/
def Builder.children {Q : Type} (b : Builder Q) : List Q :=
  b.wheres.filterMap (·.query) ++ b.havings.filterMap (·.query) ++ b.joins.map (·.builder)
    ++ b.unions.map (·.query) ++ b.subqueries.map (·.query)

/-! ### Trees -/

/-- A builder with the builders it refers to. -/
inductive Tree
  | node (b : Builder Tree)

namespace Tree

def builder : Tree → Builder Tree
  | node b => b

section Para

variable {R : Type} (step : Builder (Tree × R) → R)

mutual

/-- Recursion over a tree: `step` sees every reference with its result. -/
def para : Tree → R
  | node ⟨bs, cs, ws, js, gs, hs, os, us, uos, ul, uo, cb, ss, t, di, ih, li, gl, of, lo, ag, ti, e⟩ =>
    step ⟨bs, cs, paraWheres ws, paraJoins js, gs, paraHavings hs, os, paraUnions us, uos, ul, uo,
      cb, paraSubs ss, t, di, ih, li, gl, of, lo, ag, ti, e⟩

def paraOpt : Option Tree → Option (Tree × R)
  | none => none
  | some t => some (t, para t)

def paraWheres : List (Where Tree) → List (Where (Tree × R))
  | [] => []
  | ⟨ty, c, cs, f, s, o, v, vs, vc, b, n, sq, q, ca, op⟩ :: r =>
    ⟨ty, c, cs, f, s, o, v, vs, vc, b, n, sq, paraOpt q, ca, op⟩ :: paraWheres r

def paraHavings : List (Having Tree) → List (Having (Tree × R))
  | [] => []
  | ⟨ty, c, o, v, vs, b, n, sq, as, q⟩ :: r =>
    ⟨ty, c, o, v, vs, b, n, sq, as, paraOpt q⟩ :: paraHavings r

def paraJoins : List (JoinClause Tree) → List (JoinClause (Tree × R))
  | [] => []
  | ⟨b, k, t, l⟩ :: r => ⟨(b, para b), k, t, l⟩ :: paraJoins r

def paraUnions : List (Union Tree) → List (Union (Tree × R))
  | [] => []
  | ⟨q, a⟩ :: r => ⟨(q, para q), a⟩ :: paraUnions r

def paraSubs : List (PendingSub Tree) → List (PendingSub (Tree × R))
  | [] => []
  | ⟨q, as, k, i, s, o, l, p⟩ :: r => ⟨(q, para q), as, k, i, s, o, l, p⟩ :: paraSubs r

end

theorem paraOpt_eq (q : Option Tree) :
    paraOpt step q = q.map fun t => (t, para step t) := by
  cases q <;> simp [paraOpt]

theorem paraWheres_eq (ws : List (Where Tree)) :
    paraWheres step ws = ws.map (Where.map fun t => (t, para step t)) := by
  induction ws with
  | nil => simp [paraWheres]
  | cons w r ih => simp [paraWheres, ih, paraOpt_eq, Where.map]

theorem paraHavings_eq (hs : List (Having Tree)) :
    paraHavings step hs = hs.map (Having.map fun t => (t, para step t)) := by
  induction hs with
  | nil => simp [paraHavings]
  | cons h r ih => simp [paraHavings, ih, paraOpt_eq, Having.map]

theorem paraJoins_eq (js : List (JoinClause Tree)) :
    paraJoins step js = js.map (JoinClause.map fun t => (t, para step t)) := by
  induction js with
  | nil => simp [paraJoins]
  | cons j r ih => simp [paraJoins, ih, JoinClause.map]

theorem paraUnions_eq (us : List (Union Tree)) :
    paraUnions step us = us.map (Union.map fun t => (t, para step t)) := by
  induction us with
  | nil => simp [paraUnions]
  | cons u r ih => simp [paraUnions, ih, Union.map]

theorem paraSubs_eq (ss : List (PendingSub Tree)) :
    paraSubs step ss = ss.map (PendingSub.map fun t => (t, para step t)) := by
  induction ss with
  | nil => simp [paraSubs]
  | cons s r ih => simp [paraSubs, ih, PendingSub.map]

/-- The recursion equation. -/
theorem para_node (b : Builder Tree) :
    para step (node b) = step (b.map fun t => (t, para step t)) := by
  obtain ⟨⟩ := b
  simp only [para, paraWheres_eq, paraHavings_eq, paraJoins_eq, paraUnions_eq, paraSubs_eq,
    Builder.map]

end Para

section Ind

-- Only the node case reads `h`; the lists pass it on.
set_option linter.unusedSectionVars false

variable {P : Tree → Prop} (h : ∀ b : Builder Tree, (∀ t ∈ b.children, P t) → P (node b))
include h

mutual

theorem indOn : ∀ t, P t
  | node ⟨bs, cs, ws, js, gs, hs, os, us, uos, ul, uo, cb, ss, t, di, ih, li, gl, of, lo, ag, ti, e⟩ =>
    h _ fun t ht => by
      simp only [Builder.children, mem_append] at ht
      rcases ht with (((ht | ht) | ht) | ht) | ht
      · exact indWheres ws t ht
      · exact indHavings hs t ht
      · exact indJoins js t ht
      · exact indUnions us t ht
      · exact indSubs ss t ht

theorem indOpt : ∀ (q : Option Tree), ∀ t ∈ q, P t
  | none, _, ht => nomatch ht
  | some u, t, ht => by
    cases ht
    exact indOn u

theorem indWheres : ∀ (ws : List (Where Tree)), ∀ t ∈ ws.filterMap (·.query), P t
  | [], _, ht => nomatch ht
  | ⟨ty, c, cs, f, s, o, v, vs, vc, b, n, sq, q, ca, op⟩ :: r, t, ht => by
    rw [mem_filterMap] at ht
    obtain ⟨w, hw, hq⟩ := ht
    rcases mem_cons.mp hw with rfl | hw
    · exact indOpt q t hq
    · exact indWheres r t (mem_filterMap.mpr ⟨w, hw, hq⟩)

theorem indHavings : ∀ (hs : List (Having Tree)), ∀ t ∈ hs.filterMap (·.query), P t
  | [], _, ht => nomatch ht
  | ⟨ty, c, o, v, vs, b, n, sq, as, q⟩ :: r, t, ht => by
    rw [mem_filterMap] at ht
    obtain ⟨w, hw, hq⟩ := ht
    rcases mem_cons.mp hw with rfl | hw
    · exact indOpt q t hq
    · exact indHavings r t (mem_filterMap.mpr ⟨w, hw, hq⟩)

theorem indJoins : ∀ (js : List (JoinClause Tree)), ∀ t ∈ js.map (·.builder), P t
  | [], _, ht => nomatch ht
  | ⟨b, k, ta, l⟩ :: r, t, ht => by
    rcases mem_cons.mp ht with ht | ht
    · rw [ht]; exact indOn b
    · exact indJoins r t ht

theorem indUnions : ∀ (us : List (Union Tree)), ∀ t ∈ us.map (·.query), P t
  | [], _, ht => nomatch ht
  | ⟨q, a⟩ :: r, t, ht => by
    rcases mem_cons.mp ht with ht | ht
    · rw [ht]; exact indOn q
    · exact indUnions r t ht

theorem indSubs : ∀ (ss : List (PendingSub Tree)), ∀ t ∈ ss.map (·.query), P t
  | [], _, ht => nomatch ht
  | ⟨q, as, k, i, s, o, l, p⟩ :: r, t, ht => by
    rcases mem_cons.mp ht with ht | ht
    · rw [ht]; exact indOn q
    · exact indSubs r t ht

end

end Ind

/-- **Induction over a tree**: what holds of a builder whenever it holds of the builders it
refers to holds of every tree. -/
@[elab_as_elim]
theorem ind {P : Tree → Prop} (node : ∀ b : Builder Tree, (∀ t ∈ b.children, P t) → P (.node b))
    (t : Tree) : P t := indOn node t

/-- `p` holds of every builder of a tree. -/
inductive Everywhere (p : Builder Tree → Prop) : Tree → Prop
  | node {b : Builder Tree} (here : p b) (below : ∀ t ∈ b.children, Everywhere p t) :
    Everywhere p (.node b)

variable {p : Builder Tree → Prop} {b : Builder Tree}

theorem Everywhere.here :
    Everywhere p (.node b) → p b
  | .node h _ => h

theorem Everywhere.children :
    Everywhere p (.node b) → ∀ t ∈ b.children, Everywhere p t
  | .node _ h => h

end Tree

section Children

variable {Q : Type} {b : Builder Q} {q : Q}

theorem Builder.mem_children : q ∈ b.children ↔
    (∃ w ∈ b.wheres, w.query = some q) ∨ (∃ h ∈ b.havings, h.query = some q)
      ∨ (∃ j ∈ b.joins, j.builder = q) ∨ (∃ u ∈ b.unions, u.query = q)
      ∨ ∃ s ∈ b.subqueries, s.query = q := by
  simp only [Builder.children, mem_append, mem_filterMap, mem_map, or_assoc]

theorem Builder.children_map {R : Type} (f : Q → R) (b : Builder Q) :
    (b.map f).children = b.children.map f := by
  simp only [Builder.children, Builder.map, List.filterMap_map, List.map_append, List.map_filterMap,
    List.map_map]
  rfl

/-- A map over a builder looks at its references only. -/
theorem Builder.map_congr {R : Type} {f h : Q → R} (b : Builder Q) (hf : ∀ c ∈ b.children, f c = h c) :
    b.map f = b.map h := by
  have hopt : ∀ q : Option Q, (∀ c ∈ q, f c = h c) → q.map f = q.map h := by
    intro q hq
    cases q with
    | none => rfl
    | some c => rw [Option.map_some, Option.map_some, hq c rfl]
  simp only [Builder.map]
  congr 1
  · exact List.map_congr_left fun w hw => congrArg (fun q => { w with query := q })
      (hopt _ fun c hc => hf c (Builder.mem_children.mpr (.inl ⟨w, hw, hc⟩)))
  · exact List.map_congr_left fun j hj => congrArg (fun q => { j with builder := q })
      (hf _ (Builder.mem_children.mpr (.inr (.inr (.inl ⟨j, hj, rfl⟩)))))
  · exact List.map_congr_left fun w hw => congrArg (fun q => { w with query := q })
      (hopt _ fun c hc => hf c (Builder.mem_children.mpr (.inr (.inl ⟨w, hw, hc⟩))))
  · exact List.map_congr_left fun u hu => congrArg (fun q => { u with query := q })
      (hf _ (Builder.mem_children.mpr (.inr (.inr (.inr (.inl ⟨u, hu, rfl⟩))))))
  · exact List.map_congr_left fun s hs => congrArg (fun q => { s with query := q })
      (hf _ (Builder.mem_children.mpr (.inr (.inr (.inr (.inr ⟨s, hs, rfl⟩))))))

theorem Builder.where_mem_children {w : Where Q} (hw : w ∈ b.wheres) (h : w.query = some q) :
    q ∈ b.children := Builder.mem_children.mpr (.inl ⟨w, hw, h⟩)

theorem Builder.join_mem_children {j : JoinClause Q} (hj : j ∈ b.joins) : j.builder ∈ b.children :=
  Builder.mem_children.mpr (.inr (.inr (.inl ⟨j, hj, rfl⟩)))

theorem Builder.union_mem_children {u : Union Q} (hu : u ∈ b.unions) : u.query ∈ b.children :=
  Builder.mem_children.mpr (.inr (.inr (.inr (.inl ⟨u, hu, rfl⟩))))

theorem Builder.sub_mem_children {s : PendingSub Q} (hs : s ∈ b.subqueries) :
    s.query ∈ b.children :=
  Builder.mem_children.mpr (.inr (.inr (.inr (.inr ⟨s, hs, rfl⟩))))

end Children

end Hesape.Query
