import Hesape.Sql.KeyMap
import Hesape.Text.Bytes

/-!
# Eager loading

`With`, `WithConstraints` and `WithOnly` mark relations by name, a dotted name marking a relation of
the rows a relation leads to.  `Get` walks the marks in the order of their names and loads each
relation on the rows it found.  A dotted name it leaves to the query that fetches the rows in between,
and that query, made by the relation, has no marks but those of its own table's scopes.

So what a dotted name marks is loaded only where there is nothing to load it on or a scope has marked
it too, and a name is looked up only if it has no dot and some row was found.  And the constraint of a
name is put on the relation's own query, which a morph-to never sends (`right_iff`).
-/

namespace Hesape.Model

open Sql (KeyMap)
open Function (update)
open List

variable {Table Row C : Type}

/-! ### Relations -/

/-- Where a relation leads: to the table of its own query, or to the tables its rows name. -/
inductive Kind (Table : Type)
  | direct (related : Table)
  | morphTo (types : List Table)

def Kind.related : Kind Table → List Table
  | direct t => [t]
  | morphTo types => types

/-- A relation a table registers.  `answers` is what a query on a table answers when it is narrowed to
a batch of rows, and by a constraint if one was put on it; `set` is what a row is given of the rows
that belong to it, all of them or one. -/
structure Relation (Table Row C : Type) where
  kind : Kind Table
  answers : Table → List Row → Option C → List Row
  belongs : Row → Row → Bool
  set : List Row → List Row

/-- The relation's own query: the batch `AddEagerConstraints` narrowed it to, and the constraint that
was put on it after that. -/
structure Pending (Row C : Type) where
  batch : List Row
  constraint : Option C

namespace Relation

variable (r : Relation Table Row C)

/-- `GetEager`.  A morph-to makes a query for each type (`getResultsByType`). -/
def getEager (query : Pending Row C) : List Row :=
  match r.kind with
  | .direct t => r.answers t query.batch query.constraint
  | .morphTo types => types.flatMap fun t => r.answers t query.batch none

def matched (results : List Row) (row : Row) : List Row := r.set (results.filter (r.belongs row))

/-- `EagerLoadRelation`: what each row of the batch is given. -/
def eagerLoad (batch : List Row) (constraints : Option C) : Row → List Row :=
  r.matched (r.getEager ⟨batch, constraints⟩)

/-- What was asked for: what belongs to the row of all that the queries answer under the constraint. -/
def asked (batch : List Row) (constraints : Option C) : Row → List Row :=
  r.matched (r.kind.related.flatMap fun t => r.answers t batch constraints)

/-- Only a morph-to under a constraint gives anything else. -/
theorem eagerLoad_eq_asked {constraints : Option C}
    (h : ∀ types, r.kind = .morphTo types → constraints = none) (batch : List Row) :
    r.eagerLoad batch constraints = r.asked batch constraints := by
  rw [eagerLoad, asked, getEager]
  cases hk : r.kind with
  | direct => simp [Kind.related]
  | morphTo types => rw [h types hk]; rfl

end Relation

/-- A row and the relations loaded on it. -/
structure Entity (Row : Type) where
  row : Row
  relations : String → Option (List (Entity Row))

/-! ### Marks -/

/-- The names marked to be loaded, with their constraints. -/
abbrev EagerLoad (C : Type) := KeyMap (Option C)

def «with» (marks : EagerLoad C) (relations : List String) : EagerLoad C :=
  relations.foldl (fun marks relation => if relation = "" then marks else marks.insert relation none) marks

def withConstraints (marks : EagerLoad C) (relation : String) (constraints : Option C) : EagerLoad C :=
  marks.insert relation constraints

def withOnly (relations : List String) : EagerLoad C := «with» .empty relations

/-! ### Loading -/

/-- The relations set on each row. -/
abbrev Loaded (Row : Type) := Row → String → Option (List (Entity Row))

theorem Loaded.map_row (on : Loaded Row) (rows : List Row) :
    (rows.map fun x => Entity.mk x (on x)).map Entity.row = rows := (map_map ..).trans (map_id _)

section Load

-- `own` is what a related row comes back with, where its table's scopes mark relations themselves.
variable (schema : Table → String → Option (Relation Table Row C)) (table : Row → Table) (own : Loaded Row)
  (t : Table) (found : List Row)

/-- What a relation sets on a row. -/
def related (relation : Relation Table Row C) (constraints : Option C) (row : Row) : List (Entity Row) :=
  (relation.eagerLoad found constraints row).map fun x => .mk x (own x)

/-- The loop over the marks. -/
def loadMarks : List (String × Option C) → Loaded Row → Except (String × Table) (Loaded Row)
  | [], on => .ok on
  | (name, constraints) :: marks, on =>
    if '.' ∈ name.toList then loadMarks marks on
    else
      match schema t name with
      | none => .error (name, t)
      | some relation =>
        loadMarks marks fun row => update (on row) name (some (related own found relation constraints row))

/-- `Get`, once the rows are found. -/
def get (marks : EagerLoad C) : Except (String × Table) (List (Entity Row)) :=
  if found.isEmpty then .ok []
  else (loadMarks schema own t found marks.entries fun _ _ => none).map fun on => found.map fun row => .mk row (on row)

/-- The relations a name leads through. -/
def segments (name : String) : List String := (name.toList.splitOn '.').map String.ofList

def Registered : Table → List String → Prop
  | _, [] => True
  | t, a :: rest => ∃ relation, schema t a = some relation ∧ ∀ t' ∈ relation.kind.related, Registered t' rest

/-- The relations of a path are loaded on the entities of a level, which are of the tables `of` says, and
on the ones they lead to; the last of them under its constraint. -/
def Served (constraints : Option C) : (Row → Table) → List String → List (Entity Row) → Prop
  | _, [], _ => True
  | of, a :: rest, es =>
    (∀ e ∈ es, ∃ relation related, schema (of e.row) a = some relation ∧ e.relations a = some related ∧
      (rest = [] → related.map Entity.row = relation.asked (es.map Entity.row) constraints e.row)) ∧
    Served constraints table rest (es.flatMap fun e => (e.relations a).getD [])

/-- **What was marked is loaded**: an answer is the rows found with everything that was marked, and an error
says that a name is not registered. -/
def Right (marks : EagerLoad C) : Prop :=
  match get schema own t found marks with
  | .ok es => es.map Entity.row = found ∧ ∀ m ∈ marks.entries, Registered schema t (segments m.1) ∧
      Served schema table m.2 (fun _ => t) (segments m.1) es
  | .error _ => ∃ m ∈ marks.entries, ¬ Registered schema t (segments m.1)

/-- What the loop puts on a row. -/
def loads (marks : List (String × Option C)) (row : Row) (a : String) : Option (List (Entity Row)) :=
  if '.' ∈ a.toList then none
  else (marks.lookup a).bind fun constraints => (schema t a).map fun r => related own found r constraints row

/-- A name the loop looks up, and does not find. -/
def Unknown (marks : List (String × Option C)) : Prop :=
  ∃ m ∈ marks, '.' ∉ m.1.toList ∧ schema t m.1 = none

/-- A dotted name is served: its first relation was marked itself, and the rows that one led to came
back with the others. -/
def Reached (marks : EagerLoad C) (m : String × Option C) : Prop :=
  ∃ a rest constraints relation, segments m.1 = a :: rest ∧ marks.entries.lookup a = some constraints ∧
    schema t a = some relation ∧
    Served schema table m.2 table rest (found.flatMap (related own found relation constraints))

/-- What a name without a dot leads to is what was asked for. -/
def Constrained (m : String × Option C) : Prop :=
  ∀ relation, schema t m.1 = some relation → ∀ row ∈ found,
    relation.eagerLoad found m.2 row = relation.asked found m.2 row

variable {schema table own t found}

theorem loadMarks_ok : ∀ {marks : List (String × Option C)} {on : Loaded Row},
    marks.Pairwise (fun p q => p.1 < q.1) → ¬ Unknown schema t marks →
    loadMarks schema own t found marks on
      = .ok fun row a => (loads schema own t found marks row a).or (on row a) := by
  intro marks
  induction marks with
  | nil =>
    intro on _ _
    simp [loadMarks, loads]
  | cons m marks ih =>
    intro on hsorted hknown
    obtain ⟨name, constraints⟩ := m
    obtain ⟨hlt, hsorted⟩ := pairwise_cons.mp hsorted
    have hrest : ¬ Unknown schema t marks := fun ⟨n, hn, h⟩ => hknown ⟨n, mem_cons_of_mem _ hn, h⟩
    have hother {a : String} (ha : a ≠ name) (row : Row) : loads schema own t found ((name, constraints) :: marks) row a
        = loads schema own t found marks row a := by
      rw [loads, loads, lookup_cons, beq_false_of_ne ha]
    by_cases hdot : '.' ∈ name.toList
    · rw [loadMarks, if_pos hdot, ih hsorted hrest]
      refine congrArg Except.ok (funext fun row => funext fun a => ?_)
      by_cases ha : a = name
      · simp [loads, ha, hdot]
      · rw [hother ha]
    · obtain ⟨relation, hrel⟩ := Option.ne_none_iff_exists'.mp fun hnone => hknown ⟨_, mem_cons_self, hdot, hnone⟩
      rw [loadMarks, if_neg hdot, hrel]
      refine (ih hsorted hrest).trans (congrArg Except.ok (funext fun row => funext fun a => ?_))
      by_cases ha : a = name
      · -- No other mark has the name.
        have hnone : marks.lookup name = none :=
          lookup_eq_none_iff.mpr fun n hn => by simpa using ne_of_lt (hlt n hn)
        simp [loads, ha, hdot, hrel, hnone]
      · rw [hother ha, Function.update_of_ne ha]

theorem loadMarks_error : ∀ {marks : List (String × Option C)} {on : Loaded Row},
    Unknown schema t marks → ∃ e, loadMarks schema own t found marks on = .error e := by
  intro marks
  induction marks with
  | nil =>
    rintro on ⟨m, hm, -⟩
    cases hm
  | cons m _ ih =>
    rintro on ⟨n, hn, hdot, hnone⟩
    rw [loadMarks]
    rcases mem_cons.mp hn with rfl | hn
    · rw [if_neg hdot, hnone]
      exact ⟨_, rfl⟩
    · split
      · exact ih ⟨n, hn, hdot, hnone⟩
      · split
        · exact ⟨_, rfl⟩
        · exact ih ⟨n, hn, hdot, hnone⟩

/-! ### What is loaded -/

theorem segments_of_no_dot {name : String} (h : '.' ∉ name.toList) : segments name = [name] := by
  rw [segments, splitOn_eq_singleton h, map_singleton, String.ofList_toList]

/-- A dotted name has a first segment, without a dot, and others after it. -/
theorem segments_of_dot {name : String} (h : '.' ∈ name.toList) :
    ∃ a b rest, segments name = a :: b :: rest ∧ '.' ∉ a.toList := by
  have hjoin : ['.'].intercalate (name.toList.splitOn '.') = name.toList := intercalate_splitOn _
  have hfree := fun x (hx : x ∈ name.toList.splitOn '.') => Text.notMem_of_mem_splitOn hx
  unfold segments
  cases hsplit : name.toList.splitOn '.' with
  | nil => exact absurd hsplit (splitOn_ne_nil _ _)
  | cons x rest =>
    rw [hsplit] at hjoin hfree
    have hx := hfree x mem_cons_self
    cases rest with
    | nil =>
      rw [← hjoin] at h
      exact absurd (by simpa using h) hx
    | cons => exact ⟨_, _, _, rfl, by rwa [String.toList_ofList]⟩

theorem served_nil {constraints : Option C} : ∀ {path : List String} {of : Row → Table},
    Served schema table constraints of path [] := by
  intro path
  induction path with
  | nil => exact trivial
  | cons a rest ih => exact ⟨nofun, ih⟩

/-- What is found under a name without a dot is what its mark loaded. -/
theorem loads_eq {marks : List (String × Option C)} {a : String} (ha : '.' ∉ a.toList) {constraints : Option C}
    (hmark : marks.lookup a = some constraints) {relation : Relation Table Row C}
    (hrel : schema t a = some relation) (row : Row) :
    loads schema own t found marks row a = some (related own found relation constraints row) := by
  rw [loads, if_neg ha, hmark, hrel]
  rfl

/-- On the rows of the answer. -/
theorem served_iff (marks : EagerLoad C) {m : String × Option C} (hm : m ∈ marks.entries)
    (hknown : ¬ Unknown schema t marks.entries) (hfound : found ≠ []) :
    Served schema table m.2 (fun _ => t) (segments m.1)
        (found.map fun row => .mk row (loads schema own t found marks.entries row)) ↔
      if '.' ∈ m.1.toList then Reached schema table own t found marks m else Constrained schema t found m := by
  by_cases hdot : '.' ∈ m.1.toList
  · obtain ⟨a, b, rest, hseg, ha⟩ := segments_of_dot hdot
    have hlevel {c : Option C} {r : Relation Table Row C} (hmark : marks.entries.lookup a = some c)
        (hrel : schema t a = some r) : ((found.map fun row => Entity.mk row (loads schema own t found marks.entries row)).flatMap
          fun e => (e.relations a).getD []) = found.flatMap (related own found r c) := by
      rw [flatMap_map]
      refine flatMap_congr fun row _ => ?_
      dsimp only
      rw [loads_eq ha hmark hrel, Option.getD_some]
    rw [if_pos hdot, hseg]
    constructor
    · rintro ⟨hall, hserved⟩
      obtain ⟨row, hrow⟩ := exists_mem_of_ne_nil found hfound
      obtain ⟨relation, _, hrel, hloads, -⟩ := hall _ (mem_map_of_mem hrow)
      dsimp only [loads] at hloads
      rw [if_neg ha] at hloads
      obtain ⟨c, hmark, -⟩ := Option.bind_eq_some_iff.mp hloads
      rw [hlevel hmark hrel] at hserved
      exact ⟨a, b :: rest, c, relation, hseg, hmark, hrel, hserved⟩
    · rintro ⟨_, _, c, relation, hseg', hmark, hrel, hserved⟩
      cases hseg.symm.trans hseg'
      refine ⟨forall_mem_map.mpr fun row _ => ⟨relation, _, hrel, loads_eq ha hmark hrel row, nofun⟩, ?_⟩
      rwa [hlevel hmark hrel]
  · obtain ⟨relation, hrel⟩ := Option.ne_none_iff_exists'.mp fun hnone => hknown ⟨m, hm, hdot, hnone⟩
    have hload : ∀ row, loads schema own t found marks.entries row m.1 = _ :=
      loads_eq hdot (KeyMap.lookup_of_mem hm) hrel
    rw [if_neg hdot, segments_of_no_dot hdot, Served, Loaded.map_row]
    constructor
    · rintro ⟨hall, -⟩ _ hrel' row hrow
      obtain ⟨_, _, hrel'', hloads, hasked⟩ := hall _ (mem_map_of_mem hrow)
      cases hrel'.symm.trans hrel''
      cases hrel'.symm.trans hrel
      have hasked := hasked rfl
      rwa [← Option.some.inj ((hload row).symm.trans hloads), related, Loaded.map_row] at hasked
    · intro hasked
      refine ⟨forall_mem_map.mpr fun row hrow => ⟨relation, _, hrel, hload row, fun _ => ?_⟩, trivial⟩
      rw [related, Loaded.map_row]
      exact hasked relation hrel row hrow

variable (schema table own t found)

/-- **What eager loading gets right**: it is an error where a name without a dot is not registered and some
row was found.  Otherwise every name has to be registered, and on the rows found those without a dot
lead to what was asked for and those with one to relations that are there. -/
theorem right_iff (marks : EagerLoad C) :
    Right schema table own t found marks ↔
      (found ≠ [] ∧ ∃ m ∈ marks.entries, '.' ∉ m.1.toList ∧ schema t m.1 = none) ∨
      ((∀ m ∈ marks.entries, Registered schema t (segments m.1)) ∧
        (found ≠ [] → ∀ m ∈ marks.entries,
          if '.' ∈ m.1.toList then Reached schema table own t found marks m else Constrained schema t found m)) := by
  by_cases hfound : found = []
  · subst hfound
    simp [Right, get, served_nil]
  · have hget : get schema own t found marks = (loadMarks schema own t found marks.entries fun _ _ => none).map
        fun on => found.map fun row => .mk row (on row) := if_neg (by simpa using hfound)
    by_cases hknown : Unknown schema t marks.entries
    · obtain ⟨e, he⟩ : ∃ e, loadMarks schema own t found marks.entries (fun _ _ => none) = .error e :=
        loadMarks_error hknown
      obtain ⟨m, hm, hdot, hnone⟩ := hknown
      rw [Right, hget, he]
      refine iff_of_true ⟨m, hm, fun h => ?_⟩ (.inl ⟨hfound, m, hm, hdot, hnone⟩)
      rw [segments_of_no_dot hdot] at h
      obtain ⟨_, hrel, -⟩ := h
      cases hnone.symm.trans hrel
    · rw [Right, hget, loadMarks_ok marks.sorted hknown, or_iff_right fun h => hknown h.2]
      simp only [Except.map, Option.or_none]
      constructor
      · rintro ⟨-, h⟩
        exact ⟨fun m hm => (h m hm).1, fun _ m hm => (served_iff marks hm hknown hfound).mp (h m hm).2⟩
      · rintro ⟨hreg, h⟩
        exact ⟨Loaded.map_row _ _, fun m hm => ⟨hreg m hm, (served_iff marks hm hknown hfound).mpr (h hfound m hm)⟩⟩

end Load

/-- A relation whose queries answer one row, and none under a constraint. -/
def relationTo (kind : Kind String) : Relation String (String × ℕ) Unit where
  kind := kind
  answers t _ constraints := if constraints.isSome then [] else [(t, 1)]
  belongs _ _ := true
  set := id

/-- A user's posts, a post's comments, and what a comment is on. -/
def blog : String → String → Option (Relation String (String × ℕ) Unit)
  | "users", "posts" => some (relationTo (.direct "posts"))
  | "posts", "comments" => some (relationTo (.direct "comments"))
  | "comments", "commentable" => some (relationTo (.morphTo ["posts"]))
  | _, _ => none

/-- The comments of the posts are marked, and the posts come back without them; and the post a comment is on
is loaded although the constraint leaves it out. -/
theorem comments_left_out :
    ¬ Right blog Prod.fst (fun _ _ => none) "users" [("users", 1)] (withOnly ["posts", "posts.comments"]) ∧
    ¬ Right blog Prod.fst (fun _ _ => none) "comments" [("comments", 1)]
      (withConstraints .empty "commentable" (some ())) := by
  constructor
  · rintro ⟨-, h⟩
    obtain ⟨-, -, hserved, -⟩ := h ("posts.comments", none) (by decide)
    obtain ⟨_, _, -, hnone, -⟩ := hserved _ mem_cons_self
    cases hnone
  · rintro ⟨-, h⟩
    obtain ⟨-, hserved, -⟩ := h ("commentable", some ()) (by decide)
    obtain ⟨_, _, hrel, hloaded, hasked⟩ := hserved _ mem_cons_self
    cases hrel
    cases hloaded
    cases hasked rfl

end Hesape.Model
