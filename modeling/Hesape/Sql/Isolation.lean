import Hesape.Sql.KeyMap
import Hesape.Sql.Semantics

/-!
# Queries that read one slice of every table

Fix a column `col` and a value `v`; the slice of a table is its rows with `col = v`.
A query is `Guarded` when every select in it, at any depth, joins its conditions with
`and` alone and carries, for each stored table it reads, the condition
`label.col = v` as one of them.

`Query.eval_agree` is the point of the definition: **a guarded query cannot tell apart
two databases with the same slices**.  The condition stands in the `where`, after the
joins have been made, so the argument is about what survives it: `InSlice` keeps the
frames whose stored rows all lie in the slice, and a join of two sides that agree on
those agrees on them again (`Alike.joinFrames`), outer joins included, because the row
an outer join pads with has no `col` and never survives.
-/

namespace Hesape.Sql

open List

variable {V : Type}

section Guarded

variable (col : String) (v : V)

/-- The condition `label.col = v`, whatever its spelling. -/
def FiltersOn (label : String) (cs : List (Conn × Cond V)) : Prop :=
  ∃ k ts, k.neg = false ∧ (k, Cond.atom (some (⟨some label, col⟩, v)) ts) ∈ cs

mutual

def Cond.Guarded : Cond V → Prop
  | .atom _ _ => True
  | .group cs => ClausesGuarded cs
  | .sub _ q _ => q.Guarded

def ClausesGuarded : List (Conn × Cond V) → Prop
  | [] => True
  | (_, c) :: r => c.Guarded ∧ ClausesGuarded r

def Source.Guarded : Source V → Prop
  | .table _ _ _ => True
  | .derived _ q _ _ => q.Guarded
  | .raw _ => False

def OptGuarded : Option (Source V) → Prop
  | none => True
  | some s => s.Guarded

def Join.Guarded : Join V → Prop
  | .on _ _ src nested cs => src.Guarded ∧ JoinsGuarded nested ∧ ClausesGuarded cs
  | .lateral _ _ src nested _ => src.Guarded ∧ JoinsGuarded nested
  | .text _ => True

def JoinsGuarded : List (Join V) → Prop
  | [] => True
  | j :: r => j.Guarded ∧ JoinsGuarded r

def Item.Guarded : Item V → Prop
  | .text _ => True
  | .sub _ q _ => q.Guarded

def ItemsGuarded : List (Item V) → Prop
  | [] => True
  | i :: r => i.Guarded ∧ ItemsGuarded r

/-- Every table read at any depth has its own `label.col = v`, and no `or` stands
beside it. -/
def Query.Guarded : Query V → Prop
  | .select _ items src _ joins wheres _ =>
    (Conj wheres ∧ ∀ l ∈ optTableLabels src ++ joinsTableLabels joins, FiltersOn col v l wheres)
      ∧ ItemsGuarded items ∧ OptGuarded src ∧ JoinsGuarded joins ∧ ClausesGuarded wheres
  | .compound parts _ => QueriesGuarded parts

def QueriesGuarded : List (List (Tok V) × Query V) → Prop
  | [] => True
  | (_, q) :: r => q.Guarded ∧ QueriesGuarded r

end

theorem clausesGuarded_iff {cs : List (Conn × Cond V)} :
    ClausesGuarded col v cs ↔ ∀ p ∈ cs, p.2.Guarded col v := by
  induction cs with
  | nil => simp [ClausesGuarded]
  | cons p r ih => simp [ClausesGuarded, ih]

theorem itemsGuarded_iff {is : List (Item V)} :
    ItemsGuarded col v is ↔ ∀ i ∈ is, i.Guarded col v := by
  induction is with
  | nil => simp [ItemsGuarded]
  | cons i r ih => simp [ItemsGuarded, ih]

theorem joinsGuarded_iff {js : List (Join V)} :
    JoinsGuarded col v js ↔ ∀ j ∈ js, j.Guarded col v := by
  induction js with
  | nil => simp [JoinsGuarded]
  | cons j r ih => simp [JoinsGuarded, ih]

theorem queriesGuarded_iff {ps : List (List (Tok V) × Query V)} :
    QueriesGuarded col v ps ↔ ∀ p ∈ ps, p.2.Guarded col v := by
  induction ps with
  | nil => simp [QueriesGuarded]
  | cons p r ih => simp [QueriesGuarded, ih]

theorem joinsTableLabels_eq (js : List (Join V)) :
    joinsTableLabels js = js.flatMap Join.tableLabels := by
  induction js with
  | nil => rfl
  | cons j r ih => rw [joinsTableLabels, ih, flatMap_cons]

end Guarded

section Frames

variable [DecidableEq V] (col : String) (v : V)

/-- The row of a source is a row of the slice. -/
def rowInSlice : Option (Row V) → Bool
  | none => false
  | some r => decide (r col = some v)

/-- Every source named in `B` contributes a row of the slice. -/
def InSlice (B : List String) (f : Frame V) : Bool :=
  f.all fun e => !B.contains e.1 || rowInSlice col v e.2

/-- Two databases with the same slices. -/
def Agree (D D' : Db V) : Prop :=
  ∀ name, (D name).filter (fun r => decide (r col = some v))
    = (D' name).filter fun r => decide (r col = some v)

/-- Every frame has the same sources. -/
def HasLabels (ls : List String) (L : List (Frame V)) : Prop := ∀ f ∈ L, f.map Prod.fst = ls

variable {col v} {B : List String}

theorem inSlice_append (f g : Frame V) :
    InSlice col v B (f ++ g) = (InSlice col v B f && InSlice col v B g) := by
  simp [InSlice, all_append]

variable {ls rs : List String} {L R L' R' : List (Frame V)} {pad : Bool}

theorem inSlice_nulls (h : ∃ l ∈ ls, l ∈ B) :
    InSlice col v B (nulls ls) = false := by
  obtain ⟨l, hl, hB⟩ := h
  rw [InSlice, all_eq_false]
  exact ⟨(l, none), mem_map.mpr ⟨l, hl, rfl⟩, by simp [rowInSlice, hB]⟩

theorem inSlice_of_disjoint {f : Frame V} (h : ∀ l ∈ f.map Prod.fst, l ∉ B) :
    InSlice col v B f := by
  rw [InSlice, all_eq_true]
  intro e he
  have := h e.1 (mem_map_of_mem he)
  simp [this]

omit [DecidableEq V] in
theorem labels_nulls (ls : List String) : (nulls ls : Frame V).map Prod.fst = ls := by
  simp [nulls, Function.comp_def]

/-- Frames that do not survive on their own cannot contribute. -/
theorem filter_flatMap_of_dead {A C : Type} {p : A → Bool} {q : C → Bool} {f : A → List C}
    (h : ∀ a, p a = false → (f a).filter q = []) (L : List A) :
    (L.flatMap f).filter q = (L.filter p).flatMap fun a => (f a).filter q := by
  induction L with
  | nil => rfl
  | cons a L ih =>
    rw [flatMap_cons, filter_append, ih]
    cases hp : p a with
    | false => rw [h a hp, filter_cons_of_neg (by simp [hp])]; rfl
    | true => rw [filter_cons_of_pos hp, flatMap_cons]

/-- On a side that reads no table of `B` nothing is filtered. -/
theorem filter_eq_self_of_disjoint (hL : HasLabels ls L)
    (h : ¬ ∃ l ∈ ls, l ∈ B) : L.filter (InSlice col v B) = L := by
  rw [filter_eq_self]
  intro f hf
  exact inSlice_of_disjoint fun l hl hB => h ⟨l, (hL f hf) ▸ hl, hB⟩

/-! ### Joins -/

variable (col v) in
/-- Frames over the same sources, of which the same survive. -/
structure Alike (B ls : List String) (L L' : List (Frame V)) : Prop where
  left : HasLabels ls L
  right : HasLabels ls L'
  slice : L.filter (InSlice col v B) = L'.filter (InSlice col v B)

/-- A frame with its matches on a side, glued to it, or with nulls in their place. -/
def paired (pad : Bool) (labels : List String) (side : List (Frame V)) (ok : Frame V → Bool)
    (glue : Frame V → Frame V) : List (Frame V) :=
  padOr pad (glue (nulls labels)) ((side.filter fun x => ok (glue x)).map glue)

variable {ok : Frame V → Bool} {glue : Frame V → Frame V} {own : Bool}

omit [DecidableEq V] in
theorem mem_paired {f : Frame V} (hf : f ∈ paired pad rs R ok glue) :
    ∃ x, f = glue x ∧ (x = nulls rs ∨ x ∈ R) := by
  unfold paired padOr at hf
  split at hf
  · exact ⟨_, mem_singleton.mp hf, .inl rfl⟩
  · obtain ⟨x, hx, rfl⟩ := mem_map.mp hf
    exact ⟨x, rfl, .inr (mem_of_mem_filter hx)⟩

omit [DecidableEq V] in
theorem paired_labels {ms : List String} (hR : HasLabels rs R)
    (hglue : ∀ x, x.map Prod.fst = rs → (glue x).map Prod.fst = ms) : HasLabels ms (paired pad rs R ok glue) := by
  intro f hf
  obtain ⟨x, rfl, rfl | hx⟩ := mem_paired hf
  · exact hglue _ (labels_nulls rs)
  · exact hglue x (hR x hx)

theorem filter_paired (hglue : ∀ x, InSlice col v B (glue x) = (own && InSlice col v B x))
    (hB : ∃ l ∈ rs, l ∈ B) :
    (paired pad rs R ok glue).filter (InSlice col v B)
      = ((R.filter (InSlice col v B)).filter fun x => own && ok (glue x)).map glue := by
  have hfound : ((R.filter fun x => ok (glue x)).map glue).filter (InSlice col v B)
      = ((R.filter (InSlice col v B)).filter fun x => own && ok (glue x)).map glue := by
    rw [filter_map, filter_filter, filter_filter]
    congr 2
    funext x
    rw [Function.comp, hglue, Bool.and_right_comm]
  rw [← hfound, paired, padOr]
  split
  · next hp =>
    -- The nulls do not survive.
    rw [isEmpty_iff.mp (Bool.and_eq_true_iff.mp hp).2, filter_cons_of_neg]
    rw [hglue, inSlice_nulls hB, Bool.and_false]
    simp
  · rfl

/-- A frame that does not survive contributes nothing to a join. -/
theorem paired_dead (hglue : ∀ x, InSlice col v B (glue x) = (false && InSlice col v B x)) :
    (paired pad rs R ok glue).filter (InSlice col v B) = [] := by
  rw [filter_eq_nil_iff]
  intro f hf
  obtain ⟨x, rfl, -⟩ := mem_paired hf
  simp [hglue]

/-- A frame sees the same matches on both sides. -/
theorem Alike.same_matches (h : Alike col v B rs R R') (hglue : ∀ x, InSlice col v B (glue x) = (own && InSlice col v B x)) :
    (paired pad rs R ok glue).filter (InSlice col v B) = (paired pad rs R' ok glue).filter (InSlice col v B) := by
  by_cases hB : ∃ l ∈ rs, l ∈ B
  · rw [filter_paired hglue hB, filter_paired hglue hB, h.slice]
  · have hsame := h.slice
    rw [filter_eq_self_of_disjoint h.left hB, filter_eq_self_of_disjoint h.right hB] at hsame
    rw [hsame]

/-- Frames that agree, each glued to its matches on sides that agree. -/
theorem Alike.flatMap {side side' : Frame V → List (Frame V)} {ms : List String} (h : Alike col v B ls L L')
    (hside : ∀ l, Alike col v B rs (side l) (side' l)) (glue : Frame V → Frame V → Frame V)
    (hglue : ∀ l x, InSlice col v B (glue l x) = (InSlice col v B l && InSlice col v B x))
    (hlabels : ∀ l x, l.map Prod.fst = ls → x.map Prod.fst = rs → (glue l x).map Prod.fst = ms) :
    Alike col v B ms (L.flatMap fun l => paired pad rs (side l) ok (glue l))
      (L'.flatMap fun l => paired pad rs (side' l) ok (glue l)) := by
  refine ⟨fun f hf => ?_, fun f hf => ?_, ?_⟩
  · obtain ⟨l, hl, hf⟩ := mem_flatMap.mp hf
    exact paired_labels (hside l).left (fun x => hlabels l x (h.left l hl)) f hf
  · obtain ⟨l, hl, hf⟩ := mem_flatMap.mp hf
    exact paired_labels (hside l).right (fun x => hlabels l x (h.right l hl)) f hf
  · rw [filter_flatMap_of_dead (p := InSlice col v B) (fun l hl => paired_dead (hl ▸ hglue l)),
      filter_flatMap_of_dead (p := InSlice col v B) (fun l hl => paired_dead (hl ▸ hglue l)), h.slice]
    congr 1
    funext l
    exact (hside l).same_matches (hglue l)

/-- Right sides that agree, each joined to a left frame. -/
theorem Alike.extend {side side' : Frame V → List (Frame V)} (h : Alike col v B ls L L')
    (hside : ∀ l, Alike col v B rs (side l) (side' l)) :
    Alike col v B (ls ++ rs) (L.flatMap fun l => extend pad rs (side l) ok l)
      (L'.flatMap fun l => extend pad rs (side' l) ok l) :=
  h.flatMap hside (· ++ ·) inSlice_append fun l x hl hx => by rw [map_append, hl, hx]

/-- **Joins keep agreement**, whatever the kind of join. -/
theorem Alike.joinFrames {kind : JoinKind} (hL : Alike col v B ls L L') (hR : Alike col v B rs R R') :
    Alike col v B (ls ++ rs) (joinFrames kind ls L rs R ok) (joinFrames kind ls L' rs R' ok) := by
  cases kind with
  | left | inner | cross | straight => exact hL.extend fun _ => hR
  | right =>
    exact hR.flatMap (fun _ => hL) (fun r l => l ++ r) (fun r l => by rw [inSlice_append, Bool.and_comm])
      fun r l hr hl => by rw [map_append, hl, hr]

end Frames

/-! ### Conditions -/

section Where

variable [DecidableEq V] {I : Interp V} {D : Db V} {col : String} {v : V}

theorem clauseTruths_eq_map (cs : List (Conn × Cond V)) (env : Env V) :
    clauseTruths I D cs env = cs.map fun p => (p.1, p.2.eval I D env) := by
  induction cs with
  | nil => rfl
  | cons p r ih => rw [clauseTruths, ih]; rfl

variable {cs : List (Conn × Cond V)}

theorem conj_clauseTruths (h : Conj cs) (env : Env V) :
    Conj (clauseTruths I D cs env) := by
  rw [clauseTruths_eq_map]
  intro p hp
  obtain ⟨q, hq, rfl⟩ := mem_map.mp hp
  exact h q hq

/-- Every member of a true list without `or` is true. -/
theorem eval_of_mem_conj (h : Conj cs) {env : Env V}
    (ht : evalClauses id (clauseTruths I D cs env) = some true) {k : Conn} {c : Cond V}
    (hc : (k, c) ∈ cs) : k.sign (c.eval I D env) = some true := by
  rw [evalClauses_conj (conj_clauseTruths h env), clauseTruths_eq_map] at ht
  exact ht (k, c.eval I D env) (mem_map.mpr ⟨(k, c), hc, rfl⟩)

/-- **The guard.**  A frame that passes conditions joined by `and` alone, one of them
`l.col = v` for every `l` in `B`, lies in the slice. -/
theorem inSlice_of_where {B : List String} {wheres : List (Conn × Cond V)} (hc : Conj wheres)
    (hB : ∀ l ∈ B, FiltersOn col v l wheres) {f : Frame V} (hn : (f.map Prod.fst).Nodup)
    {env : Env V} (ht : evalClauses id (clauseTruths I D wheres (f :: env)) = some true) :
    InSlice col v B f := by
  rw [InSlice, all_eq_true]
  intro e he
  by_cases hl : e.1 ∈ B
  · obtain ⟨k, _, hk, hmem⟩ := hB e.1 hl
    have htrue := eval_of_mem_conj hc ht hmem
    rw [Conn.sign_of_not_neg hk] at htrue
    obtain ⟨l, row⟩ := e
    simp only [Cond.eval, Env.value, Env.find, lookup_of_mem_nodup hn he] at htrue
    cases row with
    | none => simp at htrue
    | some => simpa [rowInSlice, hl] using htrue
  · simp [hl]

end Where

/-! ### Queries -/

section Agree

variable [DecidableEq V] {I : Interp V} {D D' : Db V} {col : String} {v : V}

theorem Source.eval_labels (s : Source V) (hg : s.Guarded col v) (env : Env V) :
    HasLabels s.labels (s.eval I D env) := by
  cases s with
  | table =>
    intro f hf
    obtain ⟨r, _, rfl⟩ := mem_map.mp hf
    rfl
  | derived =>
    intro f hf
    rw [Source.eval] at hf
    obtain ⟨r, _, rfl⟩ := mem_map.mp hf
    rfl
  | raw => exact absurd hg (by simp [Source.Guarded])

section

-- Only the case of a stored table reads `h`; the others pass it on.
set_option linter.unusedSectionVars false

variable (h : Agree col v D D')
include h

mutual

theorem Cond.eval_agree : ∀ (c : Cond V), c.Guarded col v → c.accepted →
    ∀ env, c.eval I D env = c.eval I D' env
  | .atom none ts, _, _, env => by rw [Cond.eval, Cond.eval]
  | .atom (some (c, w)) ts, _, _, env => by rw [Cond.eval, Cond.eval]
  | .group cs, hg, ha, env => by
    rw [Cond.eval, Cond.eval, clauseTruths_agree cs hg ha env]
  | .sub pre q post, hg, ha, env => by
    rw [Cond.eval, Cond.eval, Query.eval_agree q hg ha env]

theorem clauseTruths_agree : ∀ (cs : List (Conn × Cond V)), ClausesGuarded col v cs →
    clausesAccepted cs → ∀ env, clauseTruths I D cs env = clauseTruths I D' cs env
  | [], _, _, env => by rw [clauseTruths, clauseTruths]
  | (k, c) :: r, hg, ha, env => by
    have ha := Bool.and_eq_true_iff.mp ha
    rw [clauseTruths, clauseTruths, Cond.eval_agree c hg.1 ha.1 env,
      clauseTruths_agree r hg.2 ha.2 env]

theorem Source.eval_agree : ∀ (s : Source V), s.Guarded col v → s.accepted →
    ∀ (B : List String), (∀ l ∈ s.tableLabels, l ∈ B) → ∀ env,
    Alike col v B s.labels (s.eval I D env) (s.eval I D' env)
  | .table name label ts, hg, _, B, hB, env => by
    refine ⟨Source.eval_labels _ hg env, Source.eval_labels _ hg env, ?_⟩
    -- The frames of a stored table survive exactly when their row is in the slice.
    have hl : label ∈ B := hB label (by simp [Source.tableLabels])
    have hrow : (InSlice col v B ∘ fun r : Row V => [(label, some r)])
        = fun r => decide (r col = some v) := by
      funext r
      simp [InSlice, rowInSlice, hl]
    rw [Source.eval, Source.eval, filter_map, filter_map, hrow, h name]
  | .derived pre q post label, hg, ha, B, _, env => by
    refine ⟨Source.eval_labels _ hg env, Source.eval_labels _ hg env, ?_⟩
    rw [Source.eval, Source.eval, Query.eval_agree q hg ha env]
  | .raw ts, hg, _, _, _, _ => absurd hg (by simp [Source.Guarded])

theorem optSourceEval_agree : ∀ (s : Option (Source V)), OptGuarded col v s →
    optAccepted s → ∀ (B : List String), (∀ l ∈ optTableLabels s, l ∈ B) → ∀ env,
    Alike col v B (optLabels s) (optSourceEval I D s env) (optSourceEval I D' s env)
  | none, _, _, _, _, _ => by
    refine ⟨?_, ?_, by rw [optSourceEval, optSourceEval]⟩
    all_goals
      intro f hf
      rw [mem_singleton.mp hf]
      rfl
  | some s, hg, ha, B, hB, env => by
    rw [optSourceEval, optSourceEval]
    exact Source.eval_agree s hg ha B hB env

theorem Join.eval_agree : ∀ (j : Join V), j.Guarded col v → j.accepted →
    ∀ (B : List String), (∀ l ∈ j.tableLabels, l ∈ B) → ∀ (ls : List String)
    (L L' : List (Frame V)) (env : Env V), Alike col v B ls L L' →
    Alike col v B (ls ++ j.labels) (j.eval I D ls L env) (j.eval I D' ls L' env)
  | .on kind pre src nested cs, hg, ha, B, hB, ls, L, L', env, hL => by
    simp only [Join.accepted, Bool.and_eq_true] at ha
    simp only [Join.tableLabels, mem_append, or_imp, forall_and] at hB
    have hcs : (fun f => evalClauses id (clauseTruths I D cs (f :: env)) == some true)
        = fun f => evalClauses id (clauseTruths I D' cs (f :: env)) == some true := by
      funext f
      rw [clauseTruths_agree cs hg.2.2 ha.2 (f :: env)]
    rw [Join.eval, Join.eval, Join.labels, hcs]
    exact hL.joinFrames (joinsEval_agree nested hg.2.1 ha.1.2 B hB.2 _ _ _ env
      (Source.eval_agree src hg.1 ha.1.1 B hB.1 env))
  | .lateral kind pre src nested post, hg, ha, B, hB, ls, L, L', env, hL => by
    simp only [Join.accepted, Bool.and_eq_true] at ha
    simp only [Join.tableLabels, mem_append, or_imp, forall_and] at hB
    rw [Join.eval, Join.eval, Join.labels]
    exact hL.extend fun l => joinsEval_agree nested hg.2 ha.2 B hB.2 _ _ _ _
      (Source.eval_agree src hg.1 ha.1 B hB.1 _)
  | .text ts, _, ha, _, _, _, _, _, _, _ => absurd ha (by simp [Join.accepted])

theorem joinsEval_agree : ∀ (js : List (Join V)), JoinsGuarded col v js → joinsAccepted js →
    ∀ (B : List String), (∀ l ∈ joinsTableLabels js, l ∈ B) → ∀ (ls : List String)
    (L L' : List (Frame V)) (env : Env V), Alike col v B ls L L' →
    Alike col v B (ls ++ joinsLabels js) (joinsEval I D js ls L env) (joinsEval I D' js ls L' env)
  | [], _, _, _, _, _, _, _, _, hL => by
    rw [joinsEval, joinsEval, joinsLabels, append_nil]
    exact hL
  | j :: r, hg, ha, B, hB, ls, L, L', env, hL => by
    have ha := Bool.and_eq_true_iff.mp ha
    simp only [joinsTableLabels, mem_append, or_imp, forall_and] at hB
    rw [joinsEval, joinsEval, joinsLabels, ← append_assoc]
    exact joinsEval_agree r hg.2 ha.2 B hB.2 _ _ _ env (Join.eval_agree j hg.1 ha.1 B hB.1 ls L L' env hL)

theorem itemsEval_agree : ∀ (is : List (Item V)), ItemsGuarded col v is → itemsAccepted is →
    ∀ env, itemsEval I D is env = itemsEval I D' is env
  | [], _, _, _ => by rw [itemsEval, itemsEval]
  | .text ts :: r, hg, ha, env => by
    have ha := Bool.and_eq_true_iff.mp ha
    rw [itemsEval, itemsEval, Item.eval, Item.eval, itemsEval_agree r hg.2 ha.2 env]
  | .sub pre q post :: r, hg, ha, env => by
    have ha := Bool.and_eq_true_iff.mp ha
    rw [itemsEval, itemsEval, Item.eval, Item.eval, Query.eval_agree q hg.1 ha.1 env,
      itemsEval_agree r hg.2 ha.2 env]

/-- **A guarded query cannot tell apart two databases with the same slices.** -/
theorem Query.eval_agree : ∀ (q : Query V), q.Guarded col v → q.accepted →
    ∀ env, q.eval I D env = q.eval I D' env
  | .select head items src hint joins wheres tail, hg, ha, env => by
    obtain ⟨⟨hconj, hfilter⟩, hitems, hsrc, hjoins, hwheres⟩ := hg
    simp only [Query.accepted, Bool.and_eq_true, decide_eq_true_eq] at ha
    obtain ⟨⟨⟨⟨hnodup, hai⟩, has⟩, haj⟩, haw⟩ := ha
    have hB : (∀ l ∈ optTableLabels src, l ∈ optTableLabels src ++ joinsTableLabels joins)
        ∧ ∀ l ∈ joinsTableLabels joins, l ∈ optTableLabels src ++ joinsTableLabels joins :=
      ⟨fun l hl => mem_append_left _ hl, fun l hl => mem_append_right _ hl⟩
    generalize optTableLabels src ++ joinsTableLabels joins = B at hB hfilter
    -- Both runs join up the same surviving frames, and `where` keeps only those.
    have hframes := joinsEval_agree joins hjoins haj B hB.2 (optLabels src) _ _ env
      (optSourceEval_agree src hsrc has B hB.1 env)
    have hkeep : ∀ L, HasLabels (optLabels src ++ joinsLabels joins) L →
        L.filter (fun f => evalClauses id (clauseTruths I D wheres (f :: env)) == some true)
        = (L.filter (InSlice col v B)).filter
          (fun f => evalClauses id (clauseTruths I D wheres (f :: env)) == some true) := by
      intro L hL
      rw [filter_filter]
      refine filter_congr fun f hf => ?_
      rw [Bool.eq_iff_iff, Bool.and_eq_true]
      exact ⟨fun ht => ⟨ht, inSlice_of_where hconj hfilter (hL f hf ▸ hnodup) (eq_of_beq ht)⟩, And.left⟩
    have hw : ∀ f, clauseTruths I D wheres (f :: env) = clauseTruths I D' wheres (f :: env) :=
      fun f => clauseTruths_agree wheres hwheres haw (f :: env)
    have hi : ∀ f, itemsEval I D items (f :: env) = itemsEval I D' items (f :: env) :=
      fun f => itemsEval_agree items hitems hai (f :: env)
    rw [Query.eval, Query.eval]
    simp only [← hw, ← hi]
    rw [hkeep _ hframes.left, hkeep _ hframes.right, hframes.slice]
  | .compound parts tail, hg, ha, env => by
    rw [Query.eval, Query.eval, queriesEval_agree parts hg ha env]

theorem queriesEval_agree : ∀ (ps : List (List (Tok V) × Query V)), QueriesGuarded col v ps →
    queriesAccepted ps → ∀ env, queriesEval I D ps env = queriesEval I D' ps env
  | [], _, _, _ => by rw [queriesEval, queriesEval]
  | (pre, q) :: r, hg, ha, env => by
    have ha := Bool.and_eq_true_iff.mp ha
    rw [queriesEval, queriesEval, Query.eval_agree q hg.1 ha.1 env,
      queriesEval_agree r hg.2 ha.2 env]

end

/-- What a guarded query returns depends on the slices alone. -/
theorem Query.run_agree {q : Query V} (hg : q.Guarded col v) : q.run I D = q.run I D' := by
  unfold Query.run
  split
  · next ha => rw [Query.eval_agree h q hg ha []]
  · rfl

end

end Agree

end Hesape.Sql
