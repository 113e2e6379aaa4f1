import Hesape.Query.Calls
import Hesape.Query.Settle
import Hesape.Run.Reach

/-!
# What the structured calls build

A call is structured when nothing in it is SQL the caller wrote: tables, columns and
values are names and values, and subqueries are builders.  The builders such calls make
have a shape the scoping passes rely on:

* a where clause either has no builder, and is then compiled without a subquery, or is a
  group, an existence test or a comparison with a subquery (`Sound`);
* a subquery standing in the select list, the from or a join is recorded for that place,
  and every record names a place that exists (`Placed`).

`runCalls_sound` is the induction over the calls.
-/

namespace Hesape.Query

open Sql (Conn JoinKind)
open Hesape.Query.Tree (Everywhere)
open Run (forall_concat)
open List

/-! ### Plain table names -/

/-- Letters, digits and underscores. -/
def isWord (s : String) : Bool := s ≠ "" && s.toList.all fun c => c.isAlphanum || c = '_'

/-- A name, and an alias if there is one, that every part of the package reads alike. -/
def TableName.plain (t : TableName) : Bool := isWord t.name && t.called.all isWord

theorem isWord_iff {s : String} : isWord s ↔ s ≠ "" ∧ ∀ c ∈ s.toList, c.isAlphanum ∨ c = '_' := by
  simp [isWord]

theorem not_isSpace_of_word {s : String} (h : isWord s) : ∀ c ∈ s.toList, ¬ Text.isSpace c := by
  intro c hc
  rcases (isWord_iff.mp h).2 c hc with hw | rfl
  · have hrange : (65 ≤ c.toNat ∧ c.toNat ≤ 90 ∨ 97 ≤ c.toNat ∧ c.toNat ≤ 122)
        ∨ 48 ≤ c.toNat ∧ c.toNat ≤ 57 := by
      delta Char.isAlphanum Char.isAlpha Char.isUpper Char.isLower Char.isDigit at hw
      simpa [UInt32.le_iff_toNat_le] using hw
    simp [Text.isSpace]
    omega
  · decide

theorem afterAs_append {w : List Char} (r : List Char) (h : ' ' ∉ w) :
    afterAs (w ++ r) = afterAs r := by
  induction w with
  | nil => rfl
  | cons c w ih =>
    rw [mem_cons, not_or] at h
    rw [cons_append, afterAs, if_neg fun hs => h.1 hs.1.symm, ih h.2]

section Plain

variable {t : TableName} (h : t.plain)
include h

/-- The text starts and ends with a letter of one of the two words. -/
theorem trimText_text : Text.trimText t.text = t.text := by
  obtain ⟨name, called⟩ := t
  rw [TableName.plain, Bool.and_eq_true] at h
  have hname := not_isSpace_of_word h.1
  rw [Text.trimText, Text.trim_eq_self, String.ofList_toList]
  · intro c hc
    rw [TableName.text, String.toList_append, head?_append_of_ne_nil _
      (by simpa using (isWord_iff.mp h.1).1)] at hc
    exact hname c (mem_of_head? hc)
  · intro c hc
    cases called with
    | none => exact hname c (mem_of_getLast? (by simpa [TableName.text] using hc))
    | some a =>
      have hne : a.toList ≠ [] := by simpa using (isWord_iff.mp h.2).1
      simp only [TableName.text, Option.map_some, Option.getD_some, String.toList_append] at hc
      rw [← append_assoc, getLast?_append_of_ne_nil _ hne] at hc
      exact not_isSpace_of_word h.2 c (mem_of_getLast? hc)

/-- **A plain table goes under one name**, its alias if it has one. -/
theorem aliasOr_text : aliasOr t.text = t.label := by
  obtain ⟨name, called⟩ := t
  rw [TableName.plain, Bool.and_eq_true] at h
  have hblank : ' ' ∉ name.toList := fun hc => not_isSpace_of_word h.1 ' ' hc rfl
  rw [aliasOr, TableName.text, String.toList_append, afterAs_append _ hblank]
  cases called with
  | none => simp [afterAs, TableName.label]
  | some a =>
    have ha : Text.trimText a = a := by
      simpa [TableName.text] using trimText_text (t := ⟨a, none⟩) (by simpa [TableName.plain] using h.2)
    simp [afterAs, TableName.label, ha]

theorem label_ne_empty : t.label ≠ "" := by
  obtain ⟨name, called⟩ := t
  rw [TableName.plain, Bool.and_eq_true] at h
  cases called with
  | none => exact (isWord_iff.mp h.1).1
  | some => exact (isWord_iff.mp h.2).1

theorem joinedTableName_text : joinedTableName t.text = some t.label := by
  rw [joinedTableName, trimText_text h, aliasOr_text h, if_neg (label_ne_empty h)]

theorem qualify_of_plain {Q : Type} {b : Builder Q} (hb : b.table = some (.table t)) (column : String) :
    b.qualify column = .of t.label column := by
  have hne : t.text ≠ "" := by
    intro he
    have := aliasOr_text h
    rw [he] at this
    exact label_ne_empty h this.symm
  rw [Builder.qualify, hb]
  simp [hne, aliasOr_text h]


end Plain
/-! ### Structured calls -/

namespace Col

def isName : Col → Bool
  | .name _ => true
  | .expr _ _ => false

end Col

/-- Columns of a select list: names, or the count a count comparison selects. -/
def selectable (cs : List Col) : Bool := cs.all Col.isName || cs = [.expr "count(*)" []]

mutual

/-- No SQL of the caller's in the call, no callback, no aggregate and no group limit. -/
def Call.structured : Call → Bool
  | .select cs => selectable cs
  | .addSelect cs => selectable cs
  | .selectSub _ sub _ => structuredCalls sub
  | .from t => t.plain
  | .fromSub sub _ => structuredCalls sub
  | .join _ t on => t.plain && structuredCalls on
  | .joinSub _ sub _ on => structuredCalls sub && structuredCalls on
  | .crossJoinSub sub _ => structuredCalls sub
  | .joinLateral _ sub _ => structuredCalls sub
  | .where _ c _ v => c.isName && !v.isExpression
  | .whereColumn _ c _ d => c.isName && d.isName
  | .whereIn _ _ c vs => c.isName && vs.all (!·.isExpression)
  | .whereNull _ _ cs => cs.all Col.isName
  | .whereBetween _ _ c v w => c.isName && !v.isExpression && !w.isExpression
  | .whereLike _ _ c v _ => c.isName && !v.isExpression
  | .whereIntegerInRaw _ _ c vs => c.isName && vs.all (!·.isExpression)
  | .whereBetweenColumns _ _ c cs => c.isName && cs.all Col.isName
  | .whereValueBetween _ _ v cs => !v.isExpression && cs.all Col.isName
  | .whereDate _ _ c _ v => c.isName && !v.flattenValue.isExpression
  | .whereRowValues _ cs _ vs => cs.all Col.isName && vs.all (!·.isExpression)
  | .whereJSON _ _ _ c v => c.isName && !v.isExpression
  | .whereJSONContainsKey _ _ c => c.isName
  | .whereJSONLength _ c _ v => c.isName && !v.isExpression
  | .whereFullText _ cs v _ => cs.all Col.isName && !v.isExpression
  | .whereNested _ group => structuredCalls group
  | .whereAcross _ _ cs _ v => cs.all Col.isName && !v.isExpression
  | .whereExists _ _ sub => structuredCalls sub
  | .whereSubCount _ sub _ _ => structuredCalls sub
  | .groupBy cs => cs.all Col.isName
  | .having _ c _ v => c.isName && !v.isExpression
  | .havingNull _ _ cs => cs.all Col.isName
  | .havingBetween _ _ c vs => c.isName && vs.all (!·.isExpression)
  | .havingNested _ group => structuredCalls group
  | .orderBy c _ => c.isName
  | .reorder => true
  | .union sub _ => structuredCalls sub
  | .limit _ => true
  | .offset _ => true
  | .lock (.flag _) => true
  | .distinct cs => cs.all Col.isName
  | .timeout _ => true
  | .useIndex _ => true
  | _ => false

def structuredCalls : List Call → Bool
  | [] => true
  | c :: cs => c.structured && structuredCalls cs

end

/-! ### Shapes -/

/-- The clause is compiled without a subquery. -/
def Where.Plain (g : Grammar) (w : Where Tree) : Prop :=
  ∃ e ts, g.compileWhere g.compile w = .atom e ts

def ColArg.isSub : ColArg → Bool
  | .sub _ _ _ => true
  | _ => false

def TableArg.isSub : TableArg → Bool
  | .sub _ _ => true
  | _ => false

/-- A table position holds a plain table, or a subquery `recorded` for it. -/
def TableArg.Placed (recorded : Prop) : TableArg → Prop
  | .table t => t.plain
  | .expr _ _ => False
  | .sub _ _ => recorded

theorem TableArg.Placed.imp {p q : Prop} (h : p → q) {t : TableArg} (ht : t.Placed p) :
    t.Placed q := by
  cases t with
  | table => exact ht
  | expr => exact ht
  | sub => exact h ht

/-- Every subquery of a select list, a from or a join is recorded, and every record has its
place. -/
structure Placed (b : Builder Tree) : Prop where
  table : ∀ t, b.table = some t → t.Placed (∃ p ∈ b.subqueries, p.kind = .from)
  column : ∀ i c, (b.columns.getD [])[i]? = some c → c.isSub = true →
    ∃ p ∈ b.subqueries, p.kind = .select ∧ p.index = i
  join : ∀ (i : Nat) j, b.joins[i]? = some j →
    j.table.Placed (∃ p ∈ b.subqueries, p.kind = .join ∧ p.index = i)
  fromPlace : ∀ p ∈ b.subqueries, p.kind = .from → ∃ t, b.table = some t ∧ t.isSub = true
  selectPlace : ∀ p ∈ b.subqueries, p.kind = .select → p.index < (b.columns.getD []).length
  joinPlace : ∀ p ∈ b.subqueries, p.kind = .join →
    ∃ j, b.joins[p.index]? = some j ∧ j.table.isSub = true

/-- The shape of a builder: `Sound g false` as a group, `Sound g true` as a statement. -/
inductive Sound (g : Grammar) : Bool → Tree → Prop
  | group {b : Builder Tree}
    (plain : ∀ w ∈ b.wheres, w.query = none → w.Plain g)
    (typ : ∀ w ∈ b.wheres, ∀ q, w.query = some q →
      w.typ = "Nested" ∨ w.typ = "Exists" ∨ w.typ = "Basic")
    (below : ∀ w ∈ b.wheres, ∀ q, w.query = some q → Sound g (w.typ ≠ "Nested") q) :
    Sound g false (.node b)
  | statement {b : Builder Tree} (group : Sound g false (.node b)) (placed : Placed b)
    (aggregate : b.aggregate = none) (unions : ∀ u ∈ b.unions, Sound g true u.query)
    (subqueries : ∀ p ∈ b.subqueries, Sound g true p.query) : Sound g true (.node b)

/-! ### Clauses -/

/-- A clause type that never prints a subquery. -/
def leafType (typ : String) : Bool :=
  [true, false].all fun n => (whereType typ n).1 ∉ [.nested, .sub, .exists]

/-- A clause is compiled without a subquery when neither its column is one nor its builder is
printed. -/
theorem plain_of_no_sub {g : Grammar} {w : Where Tree}
    (hq : (whereType w.typ w.not).1 ∈ [WhereKind.nested, .sub, .exists] → w.query = none)
    (hc : w.column.isSub = false) : w.Plain g := by
  unfold Where.Plain Grammar.compileWhere
  split
  case h_2 =>
    split
    · next h => rw [h] at hc; cases hc
    · exact ⟨_, _, rfl⟩
  case h_3 | h_23 | h_26 => split <;> exact ⟨_, _, rfl⟩
  case h_17 h | h_18 h | h_19 h => rw [hq (by simp [h])]; exact ⟨_, _, rfl⟩
  all_goals exact ⟨_, _, rfl⟩

theorem plain_of_leafType {g : Grammar} {w : Where Tree} (ht : leafType w.typ)
    (hc : w.column.isSub = false) : w.Plain g := by
  refine plain_of_no_sub (fun hk => ?_) hc
  have hn := all_eq_true.mp ht w.not (by cases w.not <;> simp)
  exact absurd hk (by simpa using hn)

@[simp] theorem Col.isSub_arg (c : Col) : c.arg.isSub = false := by cases c <;> rfl

/-- The shape, with nothing waiting to run and no group limit. -/
structure Fine (g : Grammar) (whole : Bool) (b : Builder Tree) : Prop where
  sound : Sound g whole (.node b)
  still : Everywhere (Still (· = none)) (.node b)

section Fine

variable {g : Grammar} {whole : Bool} {b b' : Builder Tree}

theorem node_builder (t : Tree) : .node t.builder = t := by
  cases t
  rfl

variable (h : Fine g whole b)
include h

/-- A new clause: a leaf, or a clause around a fine builder. -/
theorem Fine.pushWhere {w : Where Tree} (vs : List Val)
    (hplain : w.query = none → w.Plain g)
    (htyp : ∀ q, w.query = some q → w.typ = "Nested" ∨ w.typ = "Exists" ∨ w.typ = "Basic")
    (hbelow : ∀ q, w.query = some q → Fine g (w.typ ≠ "Nested") q.builder) :
    Fine g whole (b.pushWhere w vs) := by
  have hsplit : ∀ {P : Where Tree → Prop}, (∀ w ∈ b.wheres, P w) → P w →
      ∀ x ∈ (b.pushWhere w vs).wheres, P x := forall_concat
  have hgroup : Sound g false (.node b) → Sound g false (.node (b.pushWhere w vs)) := by
    intro h
    cases h with
    | group plain typ below =>
      refine .group (hsplit plain hplain) (hsplit typ htyp) (hsplit below fun q hq => ?_)
      have := (hbelow q hq).sound
      rwa [node_builder] at this
  refine ⟨?_, .node h.still.here fun t ht => ?_⟩
  · cases h.sound with
    | group plain typ below => exact hgroup (.group plain typ below)
    | statement group placed aggregate unions subqueries =>
      obtain ⟨p₁, p₂, p₃, p₄, p₅, p₆⟩ := placed
      exact .statement (hgroup group) ⟨p₁, p₂, p₃, p₄, p₅, p₆⟩ aggregate unions subqueries
  · obtain ⟨x, hx, hq⟩ | ht := Builder.mem_children.mp ht
    · rcases mem_append.mp hx with hx | hx
      · exact h.still.children t (b.where_mem_children hx hq)
      · rw [List.mem_singleton.mp hx] at hq
        have := (hbelow t hq).still
        rwa [node_builder] at this
    · exact h.still.children t (Builder.mem_children.mpr (.inr ht))

theorem Fine.leaf {w : Where Tree} (vs : List Val) (hq : w.query = none)
    (hc : w.column.isSub = false) (ht : leafType w.typ := by dsimp only; decide) : Fine g whole (b.pushWhere w vs) :=
  h.pushWhere vs (fun _ => plain_of_leafType ht hc) (by simp [hq]) (by simp [hq])

/-- A call that changes places and references: what is new in them is fine. -/
theorem Fine.place (hw : b'.wheres = b.wheres) (hp : Placed b → Placed b')
    (ha : b'.aggregate = b.aggregate) (hcb : b'.callbacks = b.callbacks)
    (hg : b'.groupLimit = b.groupLimit)
    (hu : ∀ u ∈ b'.unions, u ∈ b.unions ∨ Fine g true u.query.builder)
    (hs : ∀ p ∈ b'.subqueries, p ∈ b.subqueries ∨ Fine g true p.query.builder)
    (hj : ∀ j ∈ b'.joins, j ∈ b.joins ∨ Everywhere (Still (· = none)) j.builder)
    (hh : ∀ x ∈ b'.havings, x ∈ b.havings ∨ ∀ q, x.query = some q → Everywhere (Still (· = none)) q) :
    Fine g whole b' := by
  have hgroup : Sound g false (.node b) → Sound g false (.node b') := by
    intro h
    cases h with
    | group plain typ below => exact .group (hw ▸ plain) (hw ▸ typ) (hw ▸ below)
  refine ⟨?_, .node (by rw [Still, hcb, hg]; exact h.still.here) fun t ht => ?_⟩
  · cases h.sound with
    | group plain typ below => exact hgroup (.group plain typ below)
    | statement group placed aggregate unions subqueries =>
      refine .statement (hgroup group) (hp placed) (ha ▸ aggregate) (fun u hm => ?_) fun p hm => ?_
      · rcases hu u hm with hm | hf
        · exact unions u hm
        · exact node_builder u.query ▸ hf.sound
      · rcases hs p hm with hm | hf
        · exact subqueries p hm
        · exact node_builder p.query ▸ hf.sound
  · obtain ⟨w, hm, hq⟩ | ⟨x, hm, hq⟩ | ⟨j, hm, rfl⟩ | ⟨u, hm, rfl⟩ | ⟨p, hm, rfl⟩ :=
      Builder.mem_children.mp ht
    · exact h.still.children t (b.where_mem_children (hw ▸ hm) hq)
    · rcases hh x hm with hm | hf
      · exact h.still.children t (Builder.mem_children.mpr (.inr (.inl ⟨x, hm, hq⟩)))
      · exact hf t hq
    · rcases hj j hm with hm | hf
      · exact h.still.children _ (b.join_mem_children hm)
      · exact hf
    · rcases hu u hm with hm | hf
      · exact h.still.children _ (b.union_mem_children hm)
      · exact node_builder u.query ▸ hf.still
    · rcases hs p hm with hm | hf
      · exact h.still.children _ (b.sub_mem_children hm)
      · exact node_builder p.query ▸ hf.still

/-- A call that leaves the clauses, the places and the references alone. -/
theorem Fine.frame (hw : b'.wheres = b.wheres := by rfl)
    (hc : b'.columns = b.columns := by rfl) (ht : b'.table = b.table := by rfl) (hj : b'.joins = b.joins := by rfl)
    (hu : b'.unions = b.unions := by rfl) (hs : b'.subqueries = b.subqueries := by rfl)
    (ha : b'.aggregate = b.aggregate := by rfl) (hh : b'.havings = b.havings := by rfl)
    (hcb : b'.callbacks = b.callbacks := by rfl) (hg : b'.groupLimit = b.groupLimit := by rfl) : Fine g whole b' := by
  refine h.place hw ?_ ha hcb hg (hu ▸ fun _ => .inl) (hs ▸ fun _ => .inl) (hj ▸ fun _ => .inl)
    (hh ▸ fun _ => .inl)
  rintro ⟨_, _⟩
  constructor <;> simp only [ht, hc, hj, hs] <;> assumption

theorem Fine.setError (e : Err) : Fine g whole (b.setError e) :=
  h.frame

theorem Fine.withOperator (op : String) {add : String → Builder Tree}
    (ha : ∀ c, Fine g whole (add c)) : Fine g whole (b.withOperator g op add) := by
  unfold Builder.withOperator
  split
  · exact h.setError _
  · split
    · exact h
    · exact ha _

/-! ### Places -/

theorem Fine.addSelect (cs : List Col) :
    Fine g whole (b.addSelect (cs.map Col.arg)) := by
  refine h.place rfl (fun hp => ?_) rfl rfl rfl (fun _ => .inl) (fun _ => .inl) (fun _ => .inl)
    fun _ => .inl
  refine { hp with column := fun i c hc hs => ?_, selectPlace := fun p hm hk => ?_ }
  · simp only [Builder.addSelect, Option.getD_some, getElem?_append] at hc
    split at hc
    · exact hp.column i c hc hs
    · obtain ⟨d, _, rfl⟩ := mem_map.mp (mem_of_getElem? hc)
      simp at hs
  · simp only [Builder.addSelect, Option.getD_some, length_append]
    exact Nat.lt_add_right _ (hp.selectPlace p hm hk)

theorem Fine.select (cs : List Col) :
    Fine g whole (b.select (cs.map Col.arg)) := by
  refine h.place rfl (fun hp => ?_) rfl rfl rfl (fun _ => .inl)
    (fun p hm => .inl (mem_of_mem_filter hm)) (fun _ => .inl) fun _ => .inl
  have hkeep : ∀ p ∈ b.subqueries, p.kind ≠ .select →
      p ∈ (b.select (cs.map Col.arg)).subqueries := fun p hm hk =>
    mem_filter.mpr ⟨hm, by simpa using hk⟩
  refine ⟨fun t ht => ?_, fun i c hc hs => ?_, fun i j hj => ?_, fun p hm => hp.fromPlace p
    (mem_of_mem_filter hm), fun p hm hk => ?_, fun p hm => hp.joinPlace p
    (mem_of_mem_filter hm)⟩
  · exact (hp.table t ht).imp fun ⟨p, hm, hk⟩ => ⟨p, hkeep p hm (by simp [hk]), hk⟩
  · have hm := mem_of_getElem? hc
    simp only [Builder.select, Option.getD_some] at hm
    split at hm
    · rw [List.mem_singleton.mp hm] at hs; cases hs
    · obtain ⟨d, _, rfl⟩ := mem_map.mp hm
      simp at hs
  · exact (hp.join i j hj).imp fun ⟨p, hm, hk⟩ => ⟨p, hkeep p hm (by simp [hk.1]), hk⟩
  · simpa [hk] using (mem_filter.mp hm).2

theorem Fine.setTable {t : TableName} (ht : t.plain) :
    Fine g whole (b.setTable (.table t)) := by
  refine h.place rfl (fun hp => ?_) rfl rfl rfl (fun _ => .inl)
    (fun p hm => .inl (mem_of_mem_filter hm)) (fun _ => .inl) fun _ => .inl
  have hkeep : ∀ p ∈ b.subqueries, p.kind ≠ .from → p ∈ (b.setTable (.table t)).subqueries :=
    fun p hm hk => mem_filter.mpr ⟨hm, by simpa using hk⟩
  refine ⟨fun u hu => ?_, fun i c hc hs => ?_, fun i j hj => ?_, fun p hm hk => ?_, fun p hm =>
    hp.selectPlace p (mem_of_mem_filter hm), fun p hm => hp.joinPlace p
    (mem_of_mem_filter hm)⟩
  · cases hu; exact ht
  · obtain ⟨p, hm, hk⟩ := hp.column i c hc hs
    exact ⟨p, hkeep p hm (by simp [hk.1]), hk⟩
  · exact (hp.join i j hj).imp fun ⟨p, hm, hk⟩ => ⟨p, hkeep p hm (by simp [hk.1]), hk⟩
  · simpa [hk] using (mem_filter.mp hm).2

omit h

/-- Recording one more subquery for a place it stands in. -/
theorem Placed.pend {p : PendingSub Tree} (hp : Placed b) (hw : b'.subqueries = b.subqueries ++ [p])
    (htable : ∀ t, b'.table = some t → t.Placed (p.kind = .from) ∨ b.table = some t)
    (hcolumn : ∀ i c, (b'.columns.getD [])[i]? = some c → c.isSub →
      (p.kind = .select ∧ p.index = i) ∨ (b.columns.getD [])[i]? = some c)
    (hjoin : ∀ (i : Nat) (j : JoinClause Tree), b'.joins[i]? = some j →
      j.table.Placed (p.kind = .join ∧ p.index = i) ∨ b.joins[i]? = some j)
    (hfrom : ∀ q ∈ b'.subqueries, q.kind = .from → ∃ t, b'.table = some t ∧ t.isSub)
    (hselect : ∀ q ∈ b'.subqueries, q.kind = .select → q.index < (b'.columns.getD []).length)
    (hjoins : ∀ q ∈ b'.subqueries, q.kind = .join →
      ∃ j, b'.joins[q.index]? = some j ∧ j.table.isSub) : Placed b' := by
  have hold : ∀ q ∈ b.subqueries, q ∈ b'.subqueries := fun q hq => by simp [hw, hq]
  have hnew : p ∈ b'.subqueries := by simp [hw]
  refine ⟨fun t ht => ?_, fun i c hc hs => ?_, fun i j hj => ?_, hfrom, hselect, hjoins⟩
  · rcases htable t ht with ht | ht
    · exact ht.imp fun hk => ⟨p, hnew, hk⟩
    · exact (hp.table t ht).imp fun ⟨q, hm, hk⟩ => ⟨q, hold q hm, hk⟩
  · rcases hcolumn i c hc hs with hk | hc
    · exact ⟨p, hnew, hk⟩
    · obtain ⟨q, hm, hk⟩ := hp.column i c hc hs
      exact ⟨q, hold q hm, hk⟩
  · rcases hjoin i j hj with hj | hj
    · exact hj.imp fun hk => ⟨p, hnew, hk⟩
    · exact (hp.join i j hj).imp fun ⟨q, hm, hk⟩ => ⟨q, hold q hm, hk⟩

theorem Fine.refuseSub (h : Fine g whole b) (e : Err) : Fine g whole (b.refuseSub e) :=
  (h.setError e).leaf _ rfl (by decide) rfl

theorem resolveSub_fine {sub s : Tree} {q : Sql.Query Val} {vs : List Val}
    (hsub : Fine g true sub.builder) (h : g.resolveSub sub = .ok (s, q, vs)) :
    Fine g true s.builder := by
  have hs : s = g.compileEffect sub := by
    unfold Grammar.resolveSub at h
    split at h
    · cases h
    · cases h; rfl
  obtain ⟨sub⟩ := sub
  rw [hs, compileEffect_of_unlimited (t := .node sub) g hsub.still]
  exact hsub

theorem mem_snoc_imp {A : Type} {l : List A} {a : A} {P : A → Prop} (ha : P a) :
    ∀ x ∈ l ++ [a], x ∈ l ∨ P x := forall_concat (fun _ => .inl) (.inr ha)

variable {u t : Tree}

variable (h : Fine g whole b)
include h

theorem Fine.fromSub (hsub : Fine g true u.builder) (as : String) :
    Fine g whole (b.fromSub g u as) := by
  unfold Builder.fromSub
  split
  · exact h.refuseSub _
  · next s q vs hr =>
    refine h.place rfl (fun hp => ?_) rfl rfl rfl (fun _ => .inl) (mem_snoc_imp (resolveSub_fine hsub hr))
      (fun _ => .inl) fun _ => .inl
    refine hp.pend rfl (fun t ht => .inl ?_) (fun i c hc _ => .inr hc) (fun i j hj => .inr hj)
      (fun _ _ _ => ⟨_, rfl, rfl⟩) (forall_concat hp.selectPlace nofun) (forall_concat hp.joinPlace nofun)
    cases ht
    exact rfl

theorem Fine.selectSub (prefixed : Bool)
    (hsub : Fine g true u.builder) (as : String) : Fine g whole (b.selectSub g prefixed u as) := by
  unfold Builder.selectSub
  split
  · exact h.refuseSub _
  · next s q vs hr =>
    refine h.place rfl (fun hp => ?_) rfl rfl rfl (fun _ => .inl) (mem_snoc_imp (resolveSub_fine hsub hr))
      (fun _ => .inl) fun _ => .inl
    refine hp.pend rfl (fun t ht => .inr ht) (fun i c hc _ => ?_) (fun i j hj => .inr hj)
      (forall_concat hp.fromPlace nofun) (fun p hm hk => ?_) (forall_concat hp.joinPlace nofun)
    · simp only [Builder.pend, Builder.addBinding, Builder.addSelect, Option.getD_some,
        getElem?_append] at hc
      split at hc
      · exact .inr hc
      · next hi =>
        rw [getElem?_singleton] at hc
        split at hc
        · exact .inl ⟨rfl, by dsimp only; omega⟩
        · cases hc
    · have hlen : ((b.columns.getD []) ++ [ColArg.sub prefixed q (some as)]).length
          = (b.columns.getD []).length + 1 := by simp
      change p.index < ((b.columns.getD []) ++ [ColArg.sub prefixed q (some as)]).length
      rcases (mem_append.mp hm).imp_right mem_singleton.mp with hm | rfl
      · have := hp.selectPlace p hm hk
        omega
      · dsimp only
        omega

theorem Fine.addJoin (kind : JoinKind) {t : TableName} (ht : t.plain)
    {on : Tree} (hon : Everywhere (Still (· = none)) on) : Fine g whole (b.addJoin kind (.table t) on) := by
  refine h.place rfl (fun hp => ?_) rfl rfl rfl (fun _ => .inl) (fun _ => .inl) (mem_snoc_imp hon)
    fun _ => .inl
  refine { hp with join := fun i j hj => ?_, joinPlace := fun p hm hk => ?_ }
  · simp only [Builder.addJoin, getElem?_append] at hj
    split at hj
    · exact hp.join i j hj
    · have := mem_of_getElem? hj
      rw [List.mem_singleton.mp this]
      exact ht
  · obtain ⟨j, hj, hs⟩ := hp.joinPlace p hm hk
    exact ⟨j, by rw [Builder.addJoin, List.getElem?_append_left (List.getElem?_eq_some_iff.mp hj).1, hj], hs⟩

theorem Fine.pendJoin (lateral : Bool) (kind : JoinKind)
    (hsub : Fine g true u.builder) (as : String) {on : Tree}
    (hon : Everywhere (Still (· = none)) on) : Fine g whole (b.pendJoin g lateral kind u as on) := by
  unfold Builder.pendJoin
  split
  · exact h.refuseSub _
  · next s q vs hr =>
    refine h.place rfl (fun hp => ?_) rfl rfl rfl (fun _ => .inl)
      (mem_snoc_imp (resolveSub_fine hsub hr)) (mem_snoc_imp hon) fun _ => .inl
    refine hp.pend rfl (fun t ht => .inr ht) (fun i c hc _ => .inr hc) (fun i j hj => ?_)
      (forall_concat hp.fromPlace nofun) (forall_concat hp.selectPlace nofun)
      (forall_concat (fun p hm hk => ?_) fun _ => ⟨_, getElem?_concat_length, rfl⟩)
    · simp only [Builder.pend, getElem?_append] at hj
      split at hj
      · exact .inr hj
      · next hi =>
        rw [getElem?_singleton] at hj
        split at hj
        · cases hj
          exact .inl ⟨rfl, by dsimp only; omega⟩
        · cases hj
    · obtain ⟨j, hj, hs⟩ := hp.joinPlace p hm hk
      refine ⟨j, ?_, hs⟩
      simp only [Builder.pend]
      rw [List.getElem?_append_left (List.getElem?_eq_some_iff.mp hj).1, hj]

theorem Fine.union (hsub : Fine g true u.builder) (all : Bool) :
    Fine g whole (b.union u all) :=
  h.place rfl (fun hp => ⟨hp.1, hp.2, hp.3, hp.4, hp.5, hp.6⟩) rfl rfl rfl (mem_snoc_imp hsub)
    (fun _ => .inl) (fun _ => .inl) fun _ => .inl

theorem Fine.pushHaving {x : Having Tree} (vs : List Val)
    (hx : ∀ q, x.query = some q → Everywhere (Still (· = none)) q) :
    Fine g whole (b.pushHaving x vs) :=
  h.place rfl (fun hp => ⟨hp.1, hp.2, hp.3, hp.4, hp.5, hp.6⟩) rfl rfl rfl (fun _ => .inl)
    (fun _ => .inl) (fun _ => .inl) (mem_snoc_imp hx)

/-! ### Clauses around builders -/

theorem Fine.addNestedWhereQuery (k : Conn)
    (ht : Fine g false t.builder) : Fine g whole (b.addNestedWhereQuery k t) := by
  have hpush {b : Builder Tree} (hb : Fine g whole b) : Fine g whole
      (if t.builder.wheres.isEmpty then b
        else b.pushWhere { typ := "Nested", query := some t, boolean := k } (t.builder.bindings .where)) := by
    split
    · exact hb
    · exact hb.pushWhere _ (by simp) (fun q _ => .inl rfl) fun q hq => by cases hq; exact ht
  unfold Builder.addNestedWhereQuery
  cases t.builder.err with
  | none => exact hpush h
  | some e => exact hpush (h.setError e)

theorem Fine.addNestedHavingQuery (k : Conn)
    (ht : Everywhere (Still (· = none)) t) : Fine g whole (b.addNestedHavingQuery k t) := by
  have hpush {b : Builder Tree} (hb : Fine g whole b) : Fine g whole
      (if t.builder.havings.isEmpty then b
        else b.pushHaving { typ := "Nested", query := some t, boolean := k } (t.builder.bindings .having)) := by
    split
    · exact hb
    · exact hb.pushHaving _ fun q hq => by cases hq; exact ht
  unfold Builder.addNestedHavingQuery
  cases t.builder.err with
  | none => exact hpush h
  | some e => exact hpush (h.setError e)

theorem Fine.addWhereExistsQuery (k : Conn) (not : Bool)
    (ht : Fine g true t.builder) : Fine g whole (b.addWhereExistsQuery k not t) :=
  h.pushWhere _ (by simp) (fun q _ => .inr (.inl rfl)) fun q hq => by cases hq; exact ht

theorem Fine.whereSubCount (k : Conn)
    (hsub : Fine g true u.builder) (op : String) (n : Int) :
    Fine g whole (b.whereSubCount g k u op n) := by
  refine h.withOperator op fun c => ?_
  split
  · exact h.setError _
  · next s q vs hr =>
    exact h.pushWhere _ (by simp) (fun q _ => .inr (.inr rfl)) fun q hq => by
      cases hq
      exact resolveSub_fine hsub hr

end Fine

/-! ### Programs -/

section Programs

variable {g : Grammar} {encode : Val → Except String Val}

theorem fine_fresh : Fine g true {} :=
  ⟨.statement (.group (by simp) (by simp) (by simp))
    ⟨by simp, by simp, by simp, by simp, by simp, by simp⟩ rfl (by simp) (by simp),
    .node ⟨rfl, rfl⟩ (by simp [Builder.children])⟩

theorem fine_forNestedWhere (b : Builder Tree) : Fine g false b.forNestedWhere :=
  ⟨.group (by simp [Builder.forNestedWhere]) (by simp [Builder.forNestedWhere])
    (by simp [Builder.forNestedWhere]),
    .node ⟨rfl, rfl⟩ (by simp [Builder.forNestedWhere, Builder.children])⟩

variable {whole : Bool}

theorem Fine.foldl {A : Type} {f : Builder Tree → A → Builder Tree}
    (hf : ∀ b a, Fine g whole b → Fine g whole (f b a)) (l : List A) :
    ∀ b, Fine g whole b → Fine g whole (l.foldl f b) := by
  induction l with
  | nil => exact fun b h => h
  | cons a l ih => exact fun b h => ih _ (hf b a h)

variable {b : Builder Tree}

theorem Fine.pushOrder (h : Fine g whole b) (o : Order)
    (vs : List Val) : Fine g whole (b.pushOrder o vs) := by
  unfold Builder.pushOrder
  split <;> exact h.frame

/-- **One structured call** keeps the shape, given that its closures and subqueries have it. -/
theorem Call.run_fine {c : Call} (hc : c.structured)
    (inner : ∀ l ∈ c.inner, structuredCalls l → ∀ whole b, Fine g whole b →
      Fine g whole (runCalls g encode l b)) (h : Fine g whole b) : Fine g whole (c.run g encode b) := by
  have hfresh : ∀ l ∈ c.inner, structuredCalls l → Fine g true (runCalls g encode l {}) :=
    fun l hl hs => inner l hl hs true {} fine_fresh
  cases c <;> simp only [Call.structured, Bool.and_eq_true, Bool.false_eq_true] at hc
  case select cs => exact h.select cs
  case addSelect cs => exact h.addSelect cs
  case selectSub p sub as => exact h.selectSub p (u := .node _) (hfresh sub (by simp [Call.inner]) hc) as
  case «from» t => exact h.setTable hc
  case fromSub sub as => exact h.fromSub (u := .node _) (hfresh sub (by simp [Call.inner]) hc) as
  case join kind t on => exact h.addJoin kind hc.1 (hfresh on (by simp [Call.inner]) hc.2).still
  case joinSub kind sub as on =>
    exact h.pendJoin false kind (u := .node _) (hfresh sub (by simp [Call.inner]) hc.1) as
      (hfresh on (by simp [Call.inner]) hc.2).still
  case crossJoinSub sub as =>
    exact h.pendJoin false .cross (u := .node _) (hfresh sub (by simp [Call.inner]) hc) as (fine_fresh (g := g)).still
  case joinLateral kind sub as =>
    exact h.pendJoin true kind (u := .node _) (hfresh sub (by simp [Call.inner]) hc) as (fine_fresh (g := g)).still
  case «where» | whereJSONLength => exact h.withOperator _ fun _ => h.leaf _ rfl (by simp)
  case whereColumn => exact h.withOperator _ fun _ => h.leaf _ rfl rfl
  case whereIn | whereBetween | whereLike | whereIntegerInRaw | whereBetweenColumns | whereJSONContainsKey =>
    exact h.leaf _ rfl (by simp)
  case whereNull k n cs =>
    simp only [Call.run, Builder.whereNull, foldl_map]
    exact Fine.foldl (fun b c hb => hb.leaf _ rfl (by simp)) cs b h
  case whereValueBetween | whereFullText => exact h.leaf _ rfl rfl
  case whereDate k part c op v =>
    exact h.withOperator op fun _ => h.leaf _ rfl (by simp) (by cases part <;> dsimp only [Builder.DatePart.typ] <;> decide)
  case whereRowValues k cs op vs =>
    simp only [Call.run, Builder.whereRowValues]
    split
    · exact h.leaf _ rfl rfl
    · exact h.withOperator op fun _ => h.leaf _ rfl rfl
  case whereJSON k n test c v =>
    simp only [Call.run, Builder.addWhereJSON]
    split
    · exact h.leaf _ rfl (by simp) (by cases test <;> dsimp only [Builder.JsonTest.typ] <;> decide)
    · split
      · exact h.leaf _ rfl rfl
      · exact h.leaf _ rfl (by simp) (by cases test <;> dsimp only [Builder.JsonTest.typ] <;> decide)
  case whereNested k group =>
    exact h.addNestedWhereQuery k (t := .node _)
      (inner group (by simp [Call.inner]) hc false _ (fine_forNestedWhere b))
  case whereAcross k i cs op v =>
    simp only [Call.run, Builder.whereAcross, foldl_map]
    exact h.addNestedWhereQuery k (t := .node _) (Fine.foldl (fun b c hb =>
      hb.withOperator op fun _ => hb.leaf _ rfl (by simp)) cs _
        (fine_forNestedWhere b))
  case whereExists k n sub => exact h.addWhereExistsQuery k n (t := .node _) (hfresh sub (by simp [Call.inner]) hc)
  case whereSubCount k sub op n => exact h.whereSubCount k (u := .node _) (hfresh sub (by simp [Call.inner]) hc) op n
  case having k c op v => exact h.withOperator op fun _ => h.pushHaving _ (by simp)
  case havingNull k n cs => exact Fine.foldl (fun b c hb => hb.pushHaving _ (by simp)) _ b h
  case havingBetween k n c vs => exact h.pushHaving _ (by simp)
  case havingNested k group =>
    exact h.addNestedHavingQuery k (t := .node _)
      (inner group (by simp [Call.inner]) hc false _ (fine_forNestedWhere b)).still
  case orderBy c d => exact h.pushOrder _ _
  case union sub all => exact h.union (u := .node _) (hfresh sub (by simp [Call.inner]) hc) all
  case limit n =>
    simp only [Call.run, Builder.setLimit]
    split
    · exact h
    · split <;> exact h.frame
  case offset n =>
    simp only [Call.run, Builder.setOffset]
    split <;> exact h.frame
  case groupBy | reorder | lock | distinct | timeout | useIndex => exact h.frame

/-- **Every builder made by structured calls has the shape.** -/
theorem runCalls_fine (cs : List Call) (hcs : structuredCalls cs) (whole : Bool)
    (b : Builder Tree) (h : Fine g whole b) : Fine g whole (runCalls g encode cs b) := by
  induction cs using calls_induction generalizing whole b with
  | nil => exact h
  | cons c _ inner ih =>
    rw [structuredCalls, Bool.and_eq_true] at hcs
    rw [runCalls]
    exact ih hcs.2 whole _ (Call.run_fine hcs.1 (fun l hl hs w b hb => inner l hl hs w b hb) h)

end Programs

end Hesape.Query
