import Hesape.Query.ScopeSpec

/-!
# Builders without callbacks

A builder graph nobody registered a before-query callback on is `Still`: draining it does
nothing, and neither compiling nor scoping puts a callback on it.  So for a still graph
the statement is what scoping alone makes of it (`scopedFor_of_still`), and the rounds of
`settle` need no further thought.

`Still r` also carries a condition `r` on the group limits of the graph, which the same
functions leave alone.
-/

namespace Hesape.Query

open Hesape.Query.Tree (Everywhere)
open List

/-- No callback is waiting, and the group limit is as `r` says. -/
def Still (r : Option GroupLimit → Prop) (b : Builder Tree) : Prop :=
  b.callbacks = [] ∧ r b.groupLimit

section Settle

variable {r : Option GroupLimit → Prop}

variable {t : Tree}

theorem hasCallbacks_of_still (h : Everywhere (Still r) t) : hasCallbacks t = false := by
  induction t using Tree.ind with
  | node b ih =>
    rw [hasCallbacks, Tree.para_node]
    have hc : (b.map fun t => (t, hasCallbacks t)).children.any Prod.snd = false := by
      rw [Builder.children_map, any_map, any_eq_false]
      intro t ht
      simp [ih t ht (h.children t ht)]
    change (!b.callbacks.isEmpty || _) = false
    rw [h.here.1]
    exact hc

variable (prog : Nat → List Action) (g : Grammar)

theorem drain_node (b : Builder Tree) :
    drain prog g (.node b) = .node (runCallbacks prog g (b.map (drain prog g))) := by
  rw [drain, Tree.para_node, Builder.map_map]

theorem drain_of_still (h : Everywhere (Still r) t) : drain prog g t = t := by
  induction t using Tree.ind with
  | node b ih =>
    rw [drain_node, b.map_congr (h := id) (fun t ht => ih t ht (h.children t ht)), b.map_eq_self (f := id) fun _ => rfl,
      runCallbacks, h.here.1]
    exact congrArg Tree.node (by rw [foldl_nil, ← h.here.1])

/-- A still graph settles at once: it is only validated. -/
theorem settle_of_still (h : Everywhere (Still r) t) :
    settle prog g t = (validate g t).map fun _ => t := by
  rw [settle, settleRounds, drain_of_still prog g h, hasCallbacks_of_still h]
  rfl

end Settle

/-! ### Compiling keeps a graph still -/

section Effects

variable {r : Option GroupLimit → Prop} (g : Grammar)

theorem effects_node (b : Builder Tree) :
    g.effects (.node b) = g.effectStep (b.map fun t => (t, g.effects t)) := by
  rw [Grammar.effects, Tree.para_node]

/-- The parts of an effect, for a property that all of them have. -/
def Effects.All (P : Tree → Prop) (e : Effects) : Prop :=
  P e.select ∧ P e.wheres ∧ P e.joins ∧ P e.condition

theorem ownEffect_still {b : Builder Tree} (h : Still r b) : Still r (g.ownEffect b) := by
  unfold Grammar.ownEffect
  dsimp only
  split
  · exact h
  · split
    · split <;> exact h
    · exact h

theorem ownEffect_children {b : Builder Tree} : ∀ c ∈ (g.ownEffect b).children, c ∈ b.children := by
  intro c hc
  rw [Builder.mem_children] at hc ⊢
  unfold Grammar.ownEffect at hc
  dsimp only at hc
  split at hc
  · exact hc
  · split at hc
    · split at hc
      · refine hc.imp_right (Or.imp_right (Or.imp_right (Or.imp_right ?_)))
        rintro ⟨s, hs, rfl⟩
        exact ⟨s, mem_of_mem_filter (mem_of_mem_filter hs), rfl⟩
      · exact hc
    · exact hc

theorem effectWhere_query {P : Tree → Prop} {w : Where Tree}
    (h : ∀ t ∈ w.query, P t ∧ (g.effects t).All P) :
    ∀ c ∈ (Grammar.effectWhere (w.map fun t => (t, g.effects t))).query, P c := by
  intro c hc
  unfold Grammar.effectWhere at hc
  cases hq : w.query with
  | none => split at hc <;> simp [Where.map, hq] at hc
  | some t =>
    have ht := h t hq
    split at hc <;> simp [Where.map, hq] at hc <;> subst hc
    · exact ht.2.1
    · exact ht.2.1
    · exact ht.2.2.1
    · exact ht.1

variable {t : Tree}

theorem effects_everywhere (h : Everywhere (Still r) t) :
    (g.effects t).All (Everywhere (Still r)) := by
  induction t using Tree.ind with
  | node b ih =>
    have hall : ∀ t ∈ b.children, Everywhere (Still r) t ∧ (g.effects t).All (Everywhere (Still r)) :=
      fun t ht => ⟨h.children t ht, ih t ht (h.children t ht)⟩
    have hwhere : ∀ w ∈ (b.map fun t => (t, g.effects t)).wheres.map Grammar.effectWhere,
        ∀ c, w.query = some c → Everywhere (Still r) c := by
      intro w hw c hc
      simp only [Builder.map, map_map, mem_map] at hw
      obtain ⟨w, hw, rfl⟩ := hw
      exact effectWhere_query g (fun t ht => hall t (b.where_mem_children hw ht)) c hc
    have hjoin : ∀ j ∈ (b.map fun t => (t, g.effects t)).joins.map Grammar.effectJoin,
        Everywhere (Still r) j.builder := by
      intro j hj
      simp only [Builder.map, map_map, mem_map] at hj
      obtain ⟨j, hj, rfl⟩ := hj
      have := hall _ (b.join_mem_children hj)
      simp only [Function.comp, Grammar.effectJoin]
      split
      · exact this.2.2.2.1
      · exact this.2.2.2.2
    have hold : (b.map fun t => (t, g.effects t)).map Prod.fst = b := by
      rw [Builder.map_map]; exact b.map_eq_self fun _ => rfl
    -- Every part is the builder with some of its references gone through.
    have hpart : ∀ ws js us, (∀ w ∈ ws, ∀ c, w.query = some c → Everywhere (Still r) c) →
        (∀ j ∈ js, Everywhere (Still r) j.builder) → (∀ u ∈ us, Everywhere (Still r) u.query) →
        ∀ c ∈ ({ b with wheres := ws, joins := js, unions := us } : Builder Tree).children,
          Everywhere (Still r) c := by
      intro ws js us hws hjs hus c hc
      obtain ⟨w, hw, hq⟩ | ⟨x, hx, hq⟩ | ⟨j, hj, rfl⟩ | ⟨u, hu, rfl⟩ | ⟨s, hs, rfl⟩ :=
        Builder.mem_children.mp hc
      · exact hws w hw c hq
      · exact h.children c (Builder.mem_children.mpr (.inr (.inl ⟨x, hx, hq⟩)))
      · exact hjs j hj
      · exact hus u hu
      · exact h.children _ (b.sub_mem_children hs)
    have hws₀ : ∀ w ∈ b.wheres, ∀ c, w.query = some c → Everywhere (Still r) c :=
      fun w hw c hc => h.children c (b.where_mem_children hw hc)
    have hjs₀ : ∀ j ∈ b.joins, Everywhere (Still r) j.builder :=
      fun j hj => h.children _ (b.join_mem_children hj)
    have hus₀ : ∀ u ∈ b.unions, Everywhere (Still r) u.query :=
      fun u hu => h.children _ (b.union_mem_children hu)
    have hus₁ : ∀ u ∈ (b.map fun t => (t, g.effects t)).unions.map (Union.map fun p => p.2.select),
        Everywhere (Still r) u.query := by
      intro u hu
      simp only [Builder.map, map_map, mem_map] at hu
      obtain ⟨u, hu, rfl⟩ := hu
      exact (hall _ (b.union_mem_children hu)).2.1
    rw [effects_node, Grammar.effectStep]
    simp only [hold]
    refine ⟨.node (ownEffect_still g h.here) fun c hc => ?_, .node h.here (hpart _ _ _ hwhere hjs₀ hus₀),
      .node h.here (hpart _ _ _ hws₀ hjoin hus₀), .node h.here (hpart _ _ _ hwhere hjoin hus₀)⟩
    refine hpart _ _ _ hwhere hjoin ?_ c (ownEffect_children g c hc)
    split
    · exact hus₁
    · exact hus₀

/-- **Without group limits compiling leaves a builder as it is.** -/
theorem effects_of_unlimited (h : Everywhere (Still (· = none)) t) :
    g.effects t = ⟨t, t, t, t⟩ := by
  induction t using Tree.ind with
  | node b ih =>
    have hmap : (b.map fun t => (t, g.effects t)) = b.map fun t => (t, ⟨t, t, t, t⟩) :=
      b.map_congr fun t ht => by rw [ih t ht (h.children t ht)]
    have hold : (b.map fun t => (t, (⟨t, t, t, t⟩ : Effects))).map Prod.fst = b := by
      rw [Builder.map_map]; exact b.map_eq_self fun _ => rfl
    have hw : (b.map fun t => (t, (⟨t, t, t, t⟩ : Effects))).wheres.map Grammar.effectWhere
        = b.wheres := by
      simp only [Builder.map, map_map]
      refine (map_congr_left fun w _ => ?_).trans (map_id _)
      simp only [Function.comp, Grammar.effectWhere]
      split <;> rw [Where.map_map] <;> exact w.map_eq_self fun _ => rfl
    have hj : (b.map fun t => (t, (⟨t, t, t, t⟩ : Effects))).joins.map Grammar.effectJoin
        = b.joins := by
      simp only [Builder.map, map_map]
      refine (map_congr_left fun j _ => ?_).trans (map_id _)
      simp only [Function.comp, Grammar.effectJoin]
      split <;> rfl
    have hu : (b.map fun t => (t, (⟨t, t, t, t⟩ : Effects))).unions.map (Union.map fun p => p.2.select)
        = b.unions := by
      simp only [Builder.map, map_map]
      exact (map_congr_left fun u _ => rfl).trans (map_id _)
    have hown : g.ownEffect b = b := by
      unfold Grammar.ownEffect
      rw [h.here.2]
      simp
    rw [effects_node, hmap, Grammar.effectStep]
    simp only [hold, hw, hj, hu, ite_self, hown]

theorem compileEffect_of_unlimited (h : Everywhere (Still (· = none)) t) :
    g.compileEffect t = t := by
  rw [Grammar.compileEffect, effects_of_unlimited g h]

end Effects

/-! ### Scoping keeps a graph still -/

section Scoping

variable {r : Option GroupLimit → Prop} {g : Grammar} {tenant : String}

theorem map_modify_eq {A B : Type} {f : A → B} {h : A → A} (hf : ∀ a, f (h a) = f a) (l : List A)
    (i : Nat) : (l.modify i h).map f = l.map f := by
  refine ext_getElem? fun n => ?_
  rw [getElem?_map, getElem?_map, getElem?_modify]
  cases l[n]? with
  | none => rfl
  | some =>
    simp only [Option.map_some]
    split <;> simp [hf]

theorem placeAll_join_builder {Q : Type} : ∀ (l : List (PendingSub Q × Sql.Query Val))
    (b : Builder Tree), (placeAll b l).joins.map (·.builder) = b.joins.map (·.builder) := by
  intro l
  induction l with
  | nil => intro b; rfl
  | cons p l ih =>
    intro b
    rw [show placeAll b (p :: l) = placeAll (placeSub b p.1 p.2) l from rfl, ih]
    cases h : p.1.kind with
    | select | «from» => simp [placeSub, h]
    | join =>
      simp only [placeSub, h]
      refine map_modify_eq ?_ _ _
      intro j
      rfl

theorem scopesWhere_everywhere {w w' : Where Tree} (h : ScopesWhere g tenant w w')
    (hw : ∀ q, w.query = some q → Everywhere (Still r) q
      ∧ (∀ s, (scoping g tenant q).statement = .ok s → Everywhere (Still r) s)
      ∧ ∀ s, (scoping g tenant q).group = .ok s → Everywhere (Still r) s) :
    ∀ c, w'.query = some c → Everywhere (Still r) c := by
  intro c hc
  cases h with
  | plain hq => exact absurd hc (by simp [hq])
  | whole hq _ hs => cases hc; exact (hw _ hq).2.1 _ hs
  | compared hq _ hs _ => cases hc; exact (effects_everywhere g ((hw _ hq).2.1 _ hs)).1
  | group hq _ hs => cases hc; exact (hw _ hq).2.2 _ hs
  | other _ _ => exact (hw _ hc).1

theorem forall₂_mem_right {A B : Type} {R : A → B → Prop} {l : List A} {m : List B}
    (h : List.Forall₂ R l m) : ∀ b ∈ m, ∃ a ∈ l, R a b := by
  induction h with
  | nil => simp
  | cons hab _ ih =>
    intro b hb
    rcases mem_cons.mp hb with rfl | hb
    · exact ⟨_, by simp, hab⟩
    · obtain ⟨a, ha, hr⟩ := ih b hb
      exact ⟨a, by simp [ha], hr⟩

variable {b : Builder Tree}

/-- What scoping makes of a still builder is still, given as much for what it refers to. -/
theorem scopedAs_everywhere {s : Builder Tree} {us gs qs ls bs}
    (hsc : ScopedAs g tenant b s us gs qs ls bs) (h : Everywhere (Still r) (.node b))
    (hstatement : ∀ q ∈ b.children, ∀ s, (scoping g tenant q).statement = .ok s →
      Everywhere (Still r) s)
    (hgroup : ∀ s, (scoping g tenant (.node b)).group = .ok s → Everywhere (Still r) s) :
    Everywhere (Still r) (.node s) := by
  obtain ⟨hus, hgs, -, rfl, -⟩ := hsc
  have hframe := placeAll_frame (b.subqueries.zip qs) b
  refine .node (by rw [hframe]; exact h.here) fun c hc => ?_
  obtain ⟨w, hw, hq⟩ | ⟨x, hx, hq⟩ | ⟨j, hj, rfl⟩ | ⟨u, hu, rfl⟩ | ⟨s, hs, rfl⟩ :=
    Builder.mem_children.mp hc
  · -- Only the group among the clauses refers to a builder.
    rcases mem_cons.mp hw with rfl | hw
    · cases hq
    · rcases mem_append.mp hw with hw | hw
      · rcases hgs with ⟨-, rfl⟩ | ⟨t, ht, rfl⟩
        · simp at hw
        · rw [mem_singleton.mp hw] at hq
          cases hq
          exact hgroup _ ht
      · obtain ⟨l, -, rfl⟩ := mem_map.mp hw
        cases hq
  · have hx : x ∈ b.havings := by rw [hframe] at hx; exact hx
    exact h.children c (Builder.mem_children.mpr (.inr (.inl ⟨x, hx, hq⟩)))
  · have hm : j.builder ∈ (placeAll b (b.subqueries.zip qs)).joins.map (·.builder) :=
      mem_map_of_mem hj
    rw [placeAll_join_builder] at hm
    obtain ⟨_, hj₀, he⟩ := mem_map.mp hm
    exact he ▸ h.children _ (b.join_mem_children hj₀)
  · obtain ⟨_, hu₀, hsu, -⟩ := forall₂_mem_right hus u hu
    exact hstatement _ (b.union_mem_children hu₀) _ hsu
  · simp [dropSubqueries] at hs

theorem scoping_everywhere {t : Tree} (h : Everywhere (Still r) t) :
    (∀ s, (scoping g tenant t).statement = .ok s → Everywhere (Still r) s)
      ∧ ∀ s, (scoping g tenant t).group = .ok s → Everywhere (Still r) s := by
  induction t using Tree.ind with
  | node b ih =>
    have hgroup : ∀ s, (scoping g tenant (.node b)).group = .ok s → Everywhere (Still r) s := by
      intro s hs
      obtain ⟨_, bs, hws, rfl⟩ := group_ok hs
      refine .node h.here fun c hc => ?_
      obtain ⟨w, hw, hq⟩ | hc := Builder.mem_children.mp hc
      · obtain ⟨_, hw₀, hsw⟩ := forall₂_mem_right hws w hw
        refine scopesWhere_everywhere hsw (fun q hq => ?_) c hq
        have hm := b.where_mem_children hw₀ hq
        exact ⟨h.children q hm, ih q hm (h.children q hm)⟩
      · exact h.children c (Builder.mem_children.mpr (.inr hc))
    refine ⟨fun t ht => ?_, hgroup⟩
    obtain ⟨-, s, _, _, _, _, bs, rfl, -, hsc⟩ := statement_ok ht
    exact scopedAs_everywhere hsc h (fun q hq => (ih q hq (h.children q hq)).1) hgroup

/-- Under the tenant a still builder stays still, the caller's clauses in their group. -/
theorem wrapTenant_everywhere (h : Everywhere (Still r) (.node b)) :
    Everywhere (Still r) (.node (b.wrapTenant g tenant (.node b.withoutCallbacks))) := by
  have hinner : Everywhere (Still r) (.node b.withoutCallbacks) :=
    .node ⟨rfl, h.here.2⟩ h.children
  have hadd : ∀ (b : Builder Tree) c, Still r b → (∀ t ∈ b.children, Everywhere (Still r) t) →
      Still r (b.addWhere g .and (.name c) "=" (.str tenant))
        ∧ ∀ t ∈ (b.addWhere g .and (.name c) "=" (.str tenant)).children, Everywhere (Still r) t := by
    intro b c hs hc
    unfold Builder.addWhere Builder.withOperator
    rw [normalizeOperator_eq]
    dsimp only
    split
    · exact ⟨hs, hc⟩
    · refine ⟨hs, fun t ht => hc t ?_⟩
      rw [Builder.mem_children] at ht ⊢
      refine ht.imp_left fun ⟨w, hw, hq⟩ => ?_
      rcases mem_append.mp hw with hw | hw
      · exact ⟨w, hw, hq⟩
      · rw [mem_singleton.mp hw] at hq
        cases hq
  unfold Builder.wrapTenant
  dsimp only
  split
  · obtain ⟨hs, hc⟩ := hadd b (b.qualify tenantColumn) h.here h.children
    exact .node hs hc
  · obtain ⟨hs, hc⟩ := hadd { b with wheres := [], bindings := b.bindings.set .where [] }
      (b.qualify tenantColumn) h.here fun t ht => h.children t <| by
        rw [Builder.mem_children] at ht ⊢
        exact ht.imp_left fun ⟨_, hw, _⟩ => absurd hw (by simp)
    refine .node hs fun t ht => ?_
    obtain ⟨w, hw, hq⟩ | ht := Builder.mem_children.mp ht
    · rcases mem_append.mp hw with hw | hw
      · exact hc t (Builder.mem_children.mpr (.inl ⟨w, hw, hq⟩))
      · rw [mem_singleton.mp hw] at hq
        cases hq
        exact hinner
    · exact hc t (Builder.mem_children.mpr (.inr ht))

theorem validate_err {g : Grammar} {e : Err} (h : b.err = some e) :
    validate g (.node b) = .error e := by
  rw [validate_node, validateBuilder, h]

theorem scopeNested_congr {w w' : Builder (Tree × Scoping)}
    (hwheres : mapE (scopeWhere g) w.wheres = mapE (scopeWhere g) w'.wheres)
    (hany : w.wheres.any rewritesClause = w'.wheres.any rewritesClause)
    (hunions : w.unions = w'.unions) (hsubs : w.subqueries = w'.subqueries)
    (hfst : w.map Prod.fst = w'.map Prod.fst) :
    scopeNested g tenant w = scopeNested g tenant w' := by
  unfold scopeNested scopeSubqueries
  rw [hwheres, hany, hunions, hsubs, hfst]

theorem withoutCallbacks_of_nil (h : b.callbacks = []) :
    b.withoutCallbacks = b := by
  rw [Builder.withoutCallbacks, ← h]

variable (hc : b.callbacks = [])
include hc

theorem innerGroup_eq :
    innerGroup g (b.map (decorate g tenant))
      = (.node b, ⟨.error .noTenant, (scoping g tenant (.node b)).group⟩) := by
  rw [innerGroup, map_fst_decorate, withoutCallbacks_of_nil hc, scoping_node]
  rfl

/-- The group in front of a statement reads the same whether it is met inside the statement or
on its own. -/
theorem scopeNested_wrap (herr : b.err = none) :
    scopeNested g tenant ((b.wrapTenant g tenant (.node b)).map (decorate g tenant))
      = scopeNested g tenant ((b.map (decorate g tenant)).wrapTenant g tenant
          (innerGroup g (b.map (decorate g tenant)))) := by
  have he : (b.map (decorate g tenant)).wheres.isEmpty = b.wheres.isEmpty := isEmpty_map
  rw [wrapTenant_eq g herr, wrapTenant_eq g (by exact herr), innerGroup_eq hc, he, wrapBindings_map]
  cases b.wheres.isEmpty with
  | true | false => exact scopeNested_congr rfl rfl rfl rfl rfl

theorem wrapTenant_map_fst (herr : b.err = none) :
    ((b.map (decorate g tenant)).wrapTenant g tenant (innerGroup g (b.map (decorate g tenant)))).map
      Prod.fst = b.wrapTenant g tenant (.node b) := by
  have he : (b.map (decorate g tenant)).wheres.isEmpty = b.wheres.isEmpty := isEmpty_map
  rw [wrapTenant_eq g herr, wrapTenant_eq g (by exact herr), innerGroup_eq hc, he, wrapBindings_map]
  have hfst := fun ws : List (Where Tree) => congrArg (fun x : Builder Tree =>
    ({ x with wheres := ws, bindings := wrapBindings b tenant } : Builder Tree))
    (map_fst_decorate g tenant b)
  cases b.wheres.isEmpty with
  | true => exact hfst _
  | false => exact hfst _

omit hc

/-- **Without callbacks the statement is what scoping makes of the builder.** -/
theorem scopedFor_of_still (prog : Nat → List Action) {grant : Grant}
    (h : Everywhere (Still r) (.node b)) :
    scopedFor prog g grant (.node b)
      = (tenantFor grant).bind fun tenant => (scoping g tenant (.node b)).statement := by
  have hinner : b.withoutCallbacks = b := withoutCallbacks_of_nil h.here.1
  unfold scopedFor
  congr 1
  funext tenant
  have hwrap : Everywhere (Still r) (.node (b.wrapTenant g tenant (.node b.withoutCallbacks))) :=
    wrapTenant_everywhere h
  rw [hinner] at hwrap
  rw [Tree.builder, hinner, settle_of_still prog g hwrap, scoping_node, scopingStep]
  cases hb : b.err with
  | some e =>
    rw [validate_err (e := e) (by rw [wrapTenant_err, hb]), validate_err (e := e)]
    · rfl
    · rw [Builder.map]
      exact (wrapTenant_err g _ tenant _).trans hb
  | none =>
    rw [wrapTenant_map_fst h.here.1 hb, ← scopeNested_wrap h.here.1 hb]
    cases validate g (.node (b.wrapTenant g tenant (.node b))) with
    | error => rfl
    | ok =>
      change (scopeNested g tenant ((b.wrapTenant g tenant (.node b)).map (decorate g tenant))).bind _
        = Except.bind _ _
      cases hs : scopeNested g tenant ((b.wrapTenant g tenant (.node b)).map (decorate g tenant)) with
      | error => rfl
      | ok =>
        rw [scopeNested_wrap h.here.1 hb] at hs
        obtain ⟨_, _, _, _, _, hsc⟩ := scopedAs_of_ok hb hs
        exact settle_of_still prog g (scopedAs_everywhere hsc h
          (fun q hq => (scoping_everywhere (h.children q hq)).1) (scoping_everywhere h).2)

end Scoping

end Hesape.Query
