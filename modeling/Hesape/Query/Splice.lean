import Hesape.Query.ScopeSpec

/-!
# Values of recorded subqueries

A select list, a from and the joins bind their values in segments of their own, clause after clause.
Scoping a recorded subquery gives it other values, as a rule more of them, and the record only says where
the old ones began.  While the records are gone through in order, what stands before the next one are the
new values of the clauses before it, and the shift kept for the segment leads there (`Laid.splices`).
-/

namespace Hesape.Query

open Sql (Conn JoinKind)
open List

/-- What a clause binds, with the builder that is recorded for it if one is. -/
structure Part where
  segment : Segment
  values : List Val
  sub : Option Tree := none

/-- The builders that calls make, each with the parts of its clauses.  `pendJoin` is every join of a
subquery and `addJoin` one of anything else, with the condition its callback or comparison leaves; `other`
is a call that binds and records nothing, as one does whose subquery is a text.  A call that is refused
leaves an error and a clause without values. -/
inductive Built (g : Grammar) : Builder Tree → List Part → Prop
  | fresh (table : Option TableArg) : Built g { table } []
  | selectSub {b ps sub s q vs} (prefixed : Bool) (as : String) (hsub : g.resolveSub sub = .ok (s, q, vs))
    (h : Built g b ps) : Built g (b.selectSub g prefixed sub as) (ps ++ [⟨.select, vs, some s⟩])
  | selectRaw {b ps vs} (sql : String) (h : Built g b ps) : Built g (b.selectRaw sql vs) (ps ++ [⟨.select, vs, none⟩])
  | selectVectorDistance {b ps vector} (sql : String) (h : Built g b ps) :
    Built g ((b.addBinding .select [vector]).addSelect [.expr sql [vector]]) (ps ++ [⟨.select, [vector], none⟩])
  | fromSub {b ps sub s q vs} (as : String) (hsub : g.resolveSub sub = .ok (s, q, vs)) (h : Built g b ps) :
    Built g (b.fromSub g sub as) (ps ++ [⟨.from, vs, some s⟩])
  | pendJoin {b ps sub s q vs} (lateral : Bool) (kind : JoinKind) (as : String) (condition : Tree)
    (hsub : g.resolveSub sub = .ok (s, q, vs)) (h : Built g b ps) :
    Built g (b.pendJoin g lateral kind sub as condition)
      (ps ++ [⟨.join, vs, some s⟩] ++ [⟨.join, condition.builder.bindings.all, none⟩])
  | addJoin {b ps} (kind : JoinKind) (table : TableArg) (condition : Tree) (h : Built g b ps) :
    Built g (b.addJoin kind table condition) (ps ++ [⟨.join, condition.builder.bindings.all, none⟩])
  | refuse {b ps} (k : Conn) (reason : String) (h : Built g b ps) :
    Built g (b.refuse k reason) (ps ++ [⟨.where, [], none⟩])
  | other {b b' ps} (hbindings : b'.bindings = b.bindings) (hsubqueries : b'.subqueries = b.subqueries)
    (h : Built g b ps) : Built g b' ps

/-- One segment: the values `f` gives the parts in it, in order. -/
def held (f : Part → List Val) (s : Segment) (ps : List Part) : List Val :=
  (ps.filter (·.segment = s)).flatMap f

theorem held_append (f : Part → List Val) (s : Segment) (ps : List Part) (x : Part) :
    held f s (ps ++ [x]) = held f s ps ++ if x.segment = s then f x else [] := by
  rw [held, filter_append, flatMap_append, filter_singleton]
  split <;> simp_all [held]

theorem foldE_append {S A : Type} (f : S → A → Except Err S) (a : A) : ∀ (s : S) (l : List A),
    foldE f s (l ++ [a]) = (foldE f s l).bind (f · a) := by
  intro s l
  induction l generalizing s with
  | nil => rw [nil_append, foldE]; cases hf : f s a <;> simp [foldE, Except.bind, hf]
  | cons x l ih =>
    rw [cons_append, foldE, foldE]
    cases f s x with
    | error e => rfl
    | ok s => exact ih s

section Splice

variable (g : Grammar) (scope : Tree → Scoping)

/-- A recorded builder's text and values once it is scoped. -/
def scopedSql (t : Tree) : Except Err (Sql.Query Val × List Val) := (scope t).statement.bind (toSql g)

/-- A part's values once its builder is scoped. -/
def scopedValues (x : Part) : List Val :=
  match x.sub with
  | none => x.values
  | some t => ((scopedSql g scope t).toOption.map Prod.snd).getD []

/-- A builder whose segments are these parts.  Its records can be gone through with anything bound behind
them. -/
structure Laid (b : Builder Tree) (ps : List Part) : Prop where
  bindings : ∀ s, b.bindings s = held Part.values s ps
  splices : ∀ (b₀ : Builder Tree) (rest : Segment → List Val),
    (∀ s, b₀.bindings s = held Part.values s ps ++ rest s) →
    match foldE (scopeSub g) (b₀, fun _ => 0) (b.subqueries.map (PendingSub.map fun t => (t, scope t))) with
    | .error e => ∃ p ∈ b.subqueries, scopedSql g scope p.query = .error e
    | .ok st => ∀ s, st.1.bindings s = held (scopedValues g scope) s ps ++ rest s
      ∧ st.2 s = (held (scopedValues g scope) s ps).length - (held Part.values s ps).length

variable {g scope}

/-- A record's old values, replaced. -/
theorem scopeSub_eq {st : Builder Tree × (Segment → Int)} {p : PendingSub (Tree × Scoping)}
    {new old rest : List Val} (hb : st.1.bindings p.segment = new ++ (old ++ rest))
    (hstart : p.offset + st.2 p.segment = new.length) (hlength : p.length = old.length) :
    scopeSub g st p = (p.query.2.statement.bind (toSql g)).map fun t =>
      ({ placeSub st.1 p t.1 with bindings := st.1.bindings.set p.segment (new ++ t.2 ++ rest) },
        fun s => if s = p.segment then st.2 s + (t.2.length - p.length) else st.2 s) := by
  unfold scopeSub
  cases p.query.2.statement with
  | error e => rfl
  | ok s =>
    dsimp only [Except.bind]
    cases toSql g s with
    | error e => rfl
    | ok t =>
      have hplace : (placeSub st.1 p t.1).bindings = st.1.bindings := by rw [placeSub_frame]
      dsimp only [Except.map]
      rw [hplace, hstart, hb, if_neg (by simp [hlength]), Int.toNat_natCast, take_left, hlength,
        ← drop_drop, drop_left, drop_left]

namespace Laid

variable {b b' : Builder Tree} {ps : List Part} (h : Laid g scope b ps)
include h

theorem added {s : Segment} {vs : List Val} (hb : b'.bindings = b.bindings.add s vs) (sub : Option Tree)
    (s' : Segment) : b'.bindings s' = held Part.values s' (ps ++ [⟨s, vs, sub⟩]) := by
  rw [held_append, hb, Bindings.add, Bindings.set, h.bindings, h.bindings]
  split
  · next hs => rw [hs, if_pos rfl]
  · next hs => rw [if_neg (Ne.symm hs), append_nil]

theorem plain {s : Segment} {vs : List Val} (hb : b'.bindings = b.bindings.add s vs)
    (hsub : b'.subqueries = b.subqueries) : Laid g scope b' (ps ++ [⟨s, vs, none⟩]) where
  bindings := h.added hb none
  splices b₀ rest hb₀ := by
    have hrest := h.splices b₀ (fun s' => (if s = s' then vs else []) ++ rest s') fun s' => by
      rw [hb₀, held_append, append_assoc]
    rw [hsub]
    split at hrest
    · exact hrest
    · intro s'
      rw [held_append, held_append, (hrest s').1, (hrest s').2, append_assoc, length_append, length_append]
      exact ⟨rfl, by rw [Nat.cast_add, Nat.cast_add]; exact (add_sub_add_right_eq_sub ..).symm⟩

theorem sub {p : PendingSub Tree} {vs : List Val} (hsub : b'.subqueries = b.subqueries ++ [p])
    (hb : b'.bindings = b.bindings.add p.segment vs) (hoffset : p.offset = (b.bindings p.segment).length)
    (hlength : p.length = vs.length) : Laid g scope b' (ps ++ [⟨p.segment, vs, some p.query⟩]) where
  bindings := h.added hb _
  splices b₀ rest hb₀ := by
    have hrest := h.splices b₀ (fun s => (if p.segment = s then vs else []) ++ rest s) fun s => by
      rw [hb₀, held_append, append_assoc]
    rw [hsub, map_append, map_singleton, foldE_append]
    split at hrest
    · next e he =>
      rw [he]
      obtain ⟨q, hq, he⟩ := hrest
      exact ⟨q, mem_append_left _ hq, he⟩
    · next st hst =>
      rw [hst]
      have hstart : (p.offset : Int) + st.2 p.segment = (held (scopedValues g scope) p.segment ps).length := by
        rw [(hrest p.segment).2, hoffset, h.bindings]
        omega
      have hone := scopeSub_eq (g := g) (p := p.map fun t => (t, scope t)) (hrest p.segment).1 hstart
        (by rw [if_pos rfl]; exact hlength)
      rw [Except.bind, hone, show (p.map fun t => (t, scope t)).query.2.statement.bind (toSql g)
        = scopedSql g scope p.query from rfl]
      cases hsql : scopedSql g scope p.query with
      | error e => exact ⟨p, mem_append_right _ (mem_singleton_self p), hsql⟩
      | ok t =>
        have hvalues : scopedValues g scope ⟨p.segment, vs, some p.query⟩ = t.2 := by
          simp [scopedValues, hsql, Except.toOption]
        intro s
        rw [held_append, held_append, hvalues]
        obtain ⟨hbs, hshift⟩ := hrest s
        by_cases hs : p.segment = s
        · subst hs
          simp only [Bindings.set, PendingSub.map, if_true, length_append, hshift, hlength]
          exact ⟨trivial, by omega⟩
        · rw [if_neg hs] at hbs
          simp [Bindings.set, PendingSub.map, Ne.symm hs, hs, hbs, hshift]

end Laid

theorem Built.laid {b : Builder Tree} {ps : List Part} (h : Built g b ps) : Laid g scope b ps := by
  induction h with
  | fresh table => exact ⟨fun _ => rfl, fun b₀ rest hb₀ s => ⟨hb₀ s, rfl⟩⟩
  | selectSub prefixed as hsub _ ih =>
    rw [Builder.selectSub, hsub]
    exact ih.sub (p := ⟨_, as, .select, _, .select, _, _, _⟩) rfl rfl rfl rfl
  | selectRaw _ _ ih | selectVectorDistance _ _ ih | addJoin _ _ _ _ ih | refuse _ _ _ ih => exact ih.plain rfl rfl
  | fromSub as hsub _ ih =>
    rw [Builder.fromSub, hsub]
    exact ih.sub (p := ⟨_, as, .from, _, .from, _, _, _⟩) rfl rfl rfl rfl
  | @pendJoin b _ _ s _ vs _ _ as _ hsub _ ih =>
    rw [Builder.pendJoin, hsub]
    exact Laid.plain (b := (b.addBinding .join vs).pend ⟨s, as, .join, _, .join, _, _, _⟩) (ih.sub rfl rfl rfl rfl) rfl rfl
  | other hbindings hsubqueries _ ih =>
    exact ⟨by rw [hbindings]; exact ih.bindings, by rw [hsubqueries]; exact ih.splices⟩

variable (g scope)

/-- **Scoping splices bindings exactly.**  However a builder was made and whatever scoping makes of its
subqueries: each segment holds the values of its clauses in order and, once the records have been gone
through, those of the recorded subqueries as they are scoped in place of the old; the only errors are
those of scoping a subquery. -/
theorem scopeSubqueryClauses_splices {b : Builder Tree} {ps : List Part} (h : Built g b ps) :
    (∀ s, b.bindings s = held Part.values s ps) ∧
    match scopeSubqueryClauses g (b.subqueries.map (PendingSub.map fun t => (t, scope t))) b with
    | .error e => ∃ p ∈ b.subqueries, scopedSql g scope p.query = .error e
    | .ok b' => ∀ s, b'.bindings s = held (scopedValues g scope) s ps := by
  have hlaid : Laid g scope b ps := h.laid
  refine ⟨hlaid.bindings, ?_⟩
  have hsplices := hlaid.splices b (fun _ => []) fun s => by rw [append_nil, hlaid.bindings]
  rw [scopeSubqueryClauses]
  split at hsplices
  · next e he => rw [he]; exact hsplices
  · next st hst =>
    rw [hst]
    exact fun s => (hsplices s).1.trans (append_nil _)

/-- Comments of one kind. -/
def ofKind (n : Int) : Tree :=
  .node (({ table := some (.table ⟨"comments", none⟩) } : Builder Tree).addWhere (newGrammar .mysql) .and
    (.name (.bare "kind")) "=" (.int n))

/-- Values between two subqueries. -/
def ofTwoKinds : Builder Tree :=
  (((({} : Builder Tree).selectRaw "?" [.int 1]).selectSub (newGrammar .mysql) false (ofKind 7) "n").selectRaw "?"
    [.int 2]).selectSub (newGrammar .mysql) false (ofKind 8) "m"

theorem resolveSub_of_valid (sub : Tree) (h : (validate g sub).toOption.isSome) : g.resolveSub sub
    = .ok (g.compileEffect sub, (g.compile sub).query, (g.compileEffect sub).builder.bindings.all) := by
  unfold Grammar.resolveSub
  split
  · next hv => rw [hv] at h; cases h
  · rfl

/-- Each subquery gets a tenant bound in front of its own value. -/
theorem scopeSubqueryClauses_splices_columns : ∃ b', scopeSubqueryClauses (newGrammar .mysql)
      (ofTwoKinds.subqueries.map (PendingSub.map fun t => (t, scoping (newGrammar .mysql) "acme" t))) ofTwoKinds
      = .ok b' ∧
    ofTwoKinds.bindings .select = [.int 1, .int 7, .int 2, .int 8] ∧
    b'.bindings .select = [.int 1, .str "acme", .int 7, .int 2, .str "acme", .int 8] := by
  have hseven := resolveSub_of_valid (newGrammar .mysql) (ofKind 7) (by decide +kernel)
  have height := resolveSub_of_valid (newGrammar .mysql) (ofKind 8) (by decide +kernel)
  have hbuilt : Built (newGrammar .mysql) ofTwoKinds _ := .selectSub false "m" height (.selectRaw "?"
    (.selectSub false "n" hseven (.selectRaw "?" (.fresh none))))
  obtain ⟨hold, hnew⟩ := scopeSubqueryClauses_splices _ (scoping (newGrammar .mysql) "acme") hbuilt
  refine exists_ok (P := fun _ => True) (by decide +kernel) fun b' hb' _ => ?_
  rw [hb'] at hnew
  exact ⟨(hold .select).trans (by decide +kernel), (hnew .select).trans (by decide +kernel)⟩

end Splice

end Hesape.Query
