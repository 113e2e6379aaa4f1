import Hesape.Query.CompileWrite
import Hesape.Query.Tenancy
import Hesape.Sql.Entail

/-!
# Before-query callbacks against the tenant

Callbacks run on the scoped copy, after the tenant's clause is on it and the caller's own
clauses are in their group.  What a callback adds is therefore a clause beside the tenant's,
not one inside the group, and an `or` there opens an alternative of its own.

The module follows a settled copy clause by clause.  `ClauseAct.run_ok` says what one action
adds, `runCallbacks_ok` what one round adds, and `settleRounds_ok` what all rounds add to the
top of the statement: the clauses of `actsWithin`, in order, whatever happens below.
`Finished` is what the whole where list is made of, and `Finished.entails_iff` reads it: **it
entails the tenant's comparison exactly when every alternative the callbacks open keeps the
tenant**.
-/

namespace Hesape.Query

open Sql (Conn Cond KeyMap)
open List

/-! ### What one action adds -/

namespace ClauseAct

/-- The word in front of the clause. -/
def word : ClauseAct → Conn
  | .compare k _ _ _ => k
  | .group k _ => k

mutual

/-- A group with nothing in it adds nothing. -/
def idle : ClauseAct → Bool
  | .compare _ _ _ _ => false
  | .group _ acts => idleAll acts

def idleAll : List ClauseAct → Bool
  | [] => true
  | a :: r => a.idle && idleAll r

end

mutual

/-- `Where` and `OrWhere` only, nothing under `not`. -/
def positive : ClauseAct → Bool
  | .compare k _ _ _ => !k.neg
  | .group k acts => !k.neg && positiveAll acts

def positiveAll : List ClauseAct → Bool
  | [] => true
  | a :: r => a.positive && positiveAll r

end

/-- The actions that add a clause. -/
def busy (acts : List ClauseAct) : List ClauseAct := acts.filter fun a => !a.idle

theorem busy_append (l m : List ClauseAct) : busy (l ++ m) = busy l ++ busy m := filter_append ..

theorem busy_cons (a : ClauseAct) (r : List ClauseAct) :
    busy (a :: r) = if a.idle then busy r else a :: busy r := by
  rw [busy, filter_cons]
  cases a.idle <;> rfl

theorem busy_eq_nil : ∀ acts : List ClauseAct, busy acts = [] ↔ idleAll acts := by
  intro acts
  induction acts with
  | nil => simp [busy, idleAll]
  | cons a r ih =>
    rw [idleAll, Bool.and_eq_true, ← ih, busy_cons]
    cases a.idle <;> simp

theorem positiveAll_iff (acts : List ClauseAct) :
    positiveAll acts ↔ ∀ a ∈ acts, a.positive := by
  induction acts with
  | nil => simp [positiveAll]
  | cons a r ih => simp [positiveAll, ih]

mutual

/-- Induction over an action and everything grouped in it. -/
theorem ind {P : ClauseAct → Prop} (compare : ∀ k c op v, P (.compare k c op v))
    (group : ∀ k acts, (∀ a ∈ acts, P a) → P (.group k acts)) : ∀ a, P a
  | .compare k c op v => compare k c op v
  | .group k acts => group k acts (ind_all compare group acts)

theorem ind_all {P : ClauseAct → Prop} (compare : ∀ k c op v, P (.compare k c op v))
    (group : ∀ k acts, (∀ a ∈ acts, P a) → P (.group k acts)) : ∀ acts : List ClauseAct, ∀ a ∈ acts, P a
  | [] => by simp
  | a :: r => forall_mem_cons.mpr ⟨ind compare group a, ind_all compare group r⟩

end

end ClauseAct

open ClauseAct (busy)

/-- The clause an action adds; a group's builder is its own, with what the group adds. -/
inductive Adds (g : Grammar) : ClauseAct → Where Tree → Prop
  | compare {k : Conn} {column : ColArg} {operator op : String} {value : Val}
    (h : normalizeOperator g.getOperators none operator = .ok op) :
    Adds g (.compare k column operator value)
      { typ := "Basic", column, operator := op, value, boolean := k }
  | group {k : Conn} {acts : List ClauseAct} {b : Builder Tree} (hc : b.callbacks = [])
    (h : List.Forall₂ (Adds g) (busy acts) b.wheres) :
    Adds g (.group k acts) { typ := "Nested", query := some (.node b), boolean := k }

/-- The clauses a list of actions adds. -/
def AddsAll (g : Grammar) (acts : List ClauseAct) (ws : List (Where Tree)) : Prop :=
  List.Forall₂ (Adds g) (busy acts) ws

variable {g : Grammar}

theorem AddsAll.append {l m : List ClauseAct} {u v : List (Where Tree)}
    (hl : AddsAll g l u) (hm : AddsAll g m v) : AddsAll g (l ++ m) (u ++ v) := by
  unfold AddsAll
  rw [ClauseAct.busy_append]
  exact rel_append hl hm

variable {ws : List (Where Tree)}

variable {acts : List ClauseAct}

theorem AddsAll.eq_nil
    (h : AddsAll g acts ws) : ws = [] ↔ ClauseAct.idleAll acts := by
  rw [← ClauseAct.busy_eq_nil, ← length_eq_zero_iff, ← length_eq_zero_iff, h.length_eq]

/-- A builder with more clauses at its end. -/
def Builder.more (b : Builder Tree) (ws : List (Where Tree)) (bs : Bindings) (cbs : List Nat) :
    Builder Tree :=
  { b with wheres := b.wheres ++ ws, bindings := bs, callbacks := cbs }

theorem Builder.more_more (b : Builder Tree) (ws ws' : List (Where Tree)) (bs bs' : Bindings)
    (cbs cbs' : List Nat) : (b.more ws bs cbs).more ws' bs' cbs' = b.more (ws ++ ws') bs' cbs' := by
  simp [Builder.more]

theorem Builder.map_more (f : Tree → Tree) (b : Builder Tree) (ws : List (Where Tree)) (bs : Bindings)
    (cbs : List Nat) : (b.more ws bs cbs).map f = (b.map f).more (ws.map (Where.map f)) bs cbs := by
  simp [Builder.more, Builder.map]

section Acts

variable {g : Grammar}

mutual

/-- **One action**: on a builder that ends without an error it adds its clause. -/
theorem ClauseAct.run_ok : ∀ (a : ClauseAct) (b : Builder Tree), (a.run g b).err = none →
    b.err = none ∧ ∃ ws bs, a.run g b = b.more ws bs b.callbacks ∧ AddsAll g [a] ws
  | .compare k column operator value, b => by
    intro h
    simp only [ClauseAct.run, Builder.addWhere] at h ⊢
    cases hn : normalizeOperator g.getOperators none operator with
    | error =>
      unfold Builder.withOperator at h
      rw [hn] at h
      cases hb : b.err <;> simp [Builder.setError, hb] at h
    | ok =>
      have hb : b.err = none := by
        unfold Builder.withOperator at h
        rw [hn] at h
        dsimp only at h
        split at h <;> exact h
      exact ⟨hb, [_], _, by rw [withOperator_ok g hb hn]; rfl, .cons (.compare hn) .nil⟩
  | .group k acts, b => by
    intro h
    simp only [ClauseAct.run] at h ⊢
    have hinner : (runClauses g acts b.forNestedWhere).err = none := by
      cases he : (runClauses g acts b.forNestedWhere).err with
      | none => rfl
      | some =>
        exfalso
        unfold Builder.addNestedWhereQuery at h
        simp only [Tree.builder, he] at h
        split at h <;> cases hb : b.err <;> simp [Builder.setError, Builder.pushWhere, hb] at h
    obtain ⟨-, ws, bs, hrun, hadds⟩ := runClauses_ok acts b.forNestedWhere hinner
    have hws : (runClauses g acts b.forNestedWhere).wheres = ws := by rw [hrun]; rfl
    unfold Builder.addNestedWhereQuery at h ⊢
    simp only [Tree.builder, hinner, hws] at h ⊢
    cases hi : ClauseAct.idleAll acts with
    | true =>
      rw [hadds.eq_nil.mpr hi] at h ⊢
      refine ⟨h, [], b.bindings, by simp [Builder.more], ?_⟩
      simp [AddsAll, busy, ClauseAct.idle, hi]
    | false =>
      have hne : ws ≠ [] := fun hw => by rw [hadds.eq_nil.mp hw] at hi; cases hi
      rw [if_neg (by simpa using hne)] at h ⊢
      refine ⟨h, [_], _, rfl, ?_⟩
      have hbusy : busy [ClauseAct.group k acts] = [.group k acts] := by
        simp [busy, ClauseAct.idle, hi]
      rw [AddsAll, hbusy]
      refine .cons (.group ?_ (by rw [hws]; exact hadds)) .nil
      rw [hrun]
      rfl

theorem runClauses_ok : ∀ (acts : List ClauseAct) (b : Builder Tree),
    (runClauses g acts b).err = none → b.err = none ∧ ∃ ws bs, runClauses g acts b
      = b.more ws bs b.callbacks ∧ AddsAll g acts ws
  | [], b => fun h => ⟨h, [], b.bindings, by simp [runClauses, Builder.more], .nil⟩
  | a :: acts, b => by
    intro h
    rw [runClauses] at h ⊢
    obtain ⟨herr, ws₂, bs₂, hrest, hadds₂⟩ := runClauses_ok acts (a.run g b) h
    obtain ⟨hb, ws₁, _, hone, hadds₁⟩ := ClauseAct.run_ok a b herr
    refine ⟨hb, ws₁ ++ ws₂, bs₂, ?_, hadds₁.append hadds₂⟩
    rw [hrest, hone, Builder.more_more]
    rfl

end

/-! ### What one round adds -/

def Action.clause? : Action → Option ClauseAct
  | .clause c => some c
  | .beforeQuery _ => none

def Action.callback? : Action → Option Nat
  | .clause _ => none
  | .beforeQuery callback => some callback

theorem foldl_action_ok : ∀ (acts : List Action) (b : Builder Tree),
    (acts.foldl (Action.run g) b).err = none → b.err = none ∧ ∃ ws bs,
      acts.foldl (Action.run g) b = b.more ws bs (b.callbacks ++ acts.filterMap Action.callback?)
      ∧ AddsAll g (acts.filterMap Action.clause?) ws := by
  intro acts
  induction acts with
  | nil => intro b h; exact ⟨h, [], b.bindings, by simp [Builder.more], .nil⟩
  | cons a _ ih =>
    intro b h
    obtain ⟨herr, ws₂, bs₂, hrest, hadds₂⟩ := ih (a.run g b) h
    cases a with
    | clause c =>
      obtain ⟨hb, ws₁, _, hone, hadds₁⟩ := ClauseAct.run_ok c b herr
      refine ⟨hb, ws₁ ++ ws₂, bs₂, ?_, hadds₁.append hadds₂⟩
      rw [foldl_cons, hrest, show Action.run g b (.clause c) = _ from hone, Builder.more_more]
      rfl
    | beforeQuery =>
      refine ⟨herr, ws₂, bs₂, ?_, hadds₂⟩
      rw [foldl_cons, hrest]
      simp [Action.run, Builder.more, Action.callback?]

variable (prog : Nat → List Action)

/-- The clauses the callbacks of one round add, and the callbacks they register. -/
def roundActs (cbs : List Nat) : List ClauseAct := (cbs.flatMap prog).filterMap Action.clause?

def roundNext (cbs : List Nat) : List Nat := (cbs.flatMap prog).filterMap Action.callback?

theorem runCallbacks_ok {b : Builder Tree} (h : (runCallbacks prog g b).err = none) :
    b.err = none ∧ ∃ ws bs, runCallbacks prog g b = b.more ws bs (roundNext prog b.callbacks)
      ∧ AddsAll g (roundActs prog b.callbacks) ws := by
  have hfold : runCallbacks prog g b
      = (b.callbacks.flatMap prog).foldl (Action.run g) { b with callbacks := [] } := by
    rw [foldl_flatMap]
    rfl
  rw [hfold] at h ⊢
  exact foldl_action_ok _ _ h

end Acts

/-! ### What all rounds add -/

/-- What draining does to a builder without callbacks: it goes on to the builders below. -/
def Calm (f : Tree → Tree) : Prop :=
  ∀ b : Builder Tree, b.callbacks = [] → ∃ b', f (.node b) = .node b' ∧ b'.callbacks = []
    ∧ b'.wheres = b.wheres.map (Where.map f)

theorem Calm.comp {f h : Tree → Tree} (hf : Calm f) (hh : Calm h) : Calm fun t => h (f t) := by
  intro b hb
  obtain ⟨b₁, h₁, hc₁, hw₁⟩ := hf b hb
  obtain ⟨b₂, h₂, hc₂, hw₂⟩ := hh b₁ hc₁
  refine ⟨b₂, by show h (f (.node b)) = _; rw [h₁, h₂], hc₂, ?_⟩
  rw [hw₂, hw₁, map_map]
  exact map_congr_left fun w _ => w.map_map f h

theorem drain_calm (prog : Nat → List Action) (g : Grammar) : Calm (drain prog g) := by
  intro b hb
  refine ⟨_, drain_node prog g b, ?_⟩
  rw [runCallbacks, show (b.map (drain prog g)).callbacks = [] from hb]
  exact ⟨rfl, rfl⟩

variable {f : Tree → Tree}

theorem Adds.map (hf : Calm f) (a : ClauseAct) :
    ∀ {w : Where Tree}, Adds g a w → Adds g a (w.map f) := by
  induction a using ClauseAct.ind with
  | compare => intro w h; cases h with | compare h => exact .compare h
  | group k acts ih =>
    intro w h
    cases h with
    | @group _ _ b hc h =>
      obtain ⟨b', hb', hc', hw'⟩ := hf b hc
      have hadds : Adds g (.group k acts) { typ := "Nested", query := some (.node b'), boolean := k } := by
        refine .group hc' ?_
        rw [hw', forall₂_map_right_iff]
        have hih : ∀ a ∈ busy acts, ∀ w, Adds g a w → Adds g a (w.map f) :=
          fun a ha w => ih a (mem_of_mem_filter ha)
        exact ((forall₂_and_left _ _).mpr ⟨hih, h⟩).imp fun a w hw => hw.1 w hw.2
      rw [← hb'] at hadds
      exact hadds

theorem AddsAll.map (hf : Calm f) (h : AddsAll g acts ws) : AddsAll g acts (ws.map (Where.map f)) :=
  forall₂_map_right_iff.mpr (h.imp fun a _ hw => Adds.map hf a hw)

section Rounds

variable (prog : Nat → List Action) {g : Grammar}

/-- The clauses the callbacks add within `n` rounds, each round running those the last one
registered. -/
def actsWithin : Nat → List Nat → List ClauseAct
  | 0, _ => []
  | n + 1, cbs => roundActs prog cbs ++ actsWithin n (roundNext prog cbs)

@[simp] theorem actsWithin_nil (n : Nat) : actsWithin prog n [] = [] := by
  induction n with
  | zero => rfl
  | succ n ih => rw [actsWithin, show roundNext prog [] = [] from rfl, ih]; rfl

variable {b : Builder Tree}

theorem callbacks_of_hasCallbacks (h : hasCallbacks (.node b) = false) :
    b.callbacks = [] := by
  rw [hasCallbacks, Tree.para_node, Bool.or_eq_false_iff] at h
  simpa [Builder.map] using h.1

/-- **All rounds**: a graph that settles has at its top the clauses of every round, in order. -/
theorem settleRounds_ok : ∀ (n : Nat) (b : Builder Tree) (t : Tree),
    settleRounds prog g n (.node b) = .ok t → b.err = none ∧ ∃ f ws bs, Calm f
      ∧ t = .node ((b.map f).more ws bs []) ∧ AddsAll g (actsWithin prog n b.callbacks) ws := by
  intro n
  induction n with
  | zero => intro b t h; cases h
  | succ n ih =>
    intro b t h
    rw [settleRounds, drain_node] at h
    by_cases hc : hasCallbacks (.node (runCallbacks prog g (b.map (drain prog g))))
    · simp only [hc, if_true] at h
      obtain ⟨herr, f, ws₂, bs₂, hf, rfl, hadds₂⟩ := ih _ _ h
      obtain ⟨hb, ws₁, _, hrun, hadds₁⟩ := runCallbacks_ok prog herr
      rw [hrun] at hadds₂
      refine ⟨hb, _, ws₁.map (Where.map f) ++ ws₂, bs₂, (drain_calm prog g).comp hf, ?_,
        (hadds₁.map hf).append hadds₂⟩
      rw [hrun, Builder.map_more, Builder.more_more, Builder.map_map]
    · simp only [hc, if_false, Bool.false_eq_true] at h
      obtain ⟨⟨⟩, hv, rfl⟩ := map_eq_ok.mp h
      obtain ⟨hb, ws, bs, hrun, hadds⟩ := runCallbacks_ok prog (validate_children hv).1
      have hnext : roundNext prog b.callbacks = [] := by
        have := callbacks_of_hasCallbacks (by simpa using hc)
        rwa [hrun] at this
      refine ⟨hb, _, ws, bs, drain_calm prog g, by rw [hrun, ← hnext]; rfl, ?_⟩
      rw [actsWithin, hnext, actsWithin_nil, append_nil]
      exact hadds

/-- Settling something whose own callbacks have run changes only what is below it. -/
theorem settle_of_called {t : Tree} (hc : b.callbacks = [])
    (h : settle prog g (.node b) = .ok t) : ∃ f bs, Calm f ∧ t = .node { b.map f with bindings := bs } := by
  obtain ⟨-, f, _, bs, hf, rfl, hadds⟩ := settleRounds_ok prog 64 b t h
  rw [hc, actsWithin_nil] at hadds
  cases hadds
  refine ⟨f, bs, hf, ?_⟩
  simp [Builder.more, Builder.map, hc]

end Rounds

/-! ### What scoping leaves of them -/

theorem forall₂_trans_of_mem {A B C : Type} {R : A → B → Prop} {S : B → C → Prop} {T : A → C → Prop}
    {l : List A} {m : List B} (h₁ : List.Forall₂ R l m) : ∀ {n : List C}, List.Forall₂ S m n →
    (∀ a ∈ l, ∀ b c, R a b → S b c → T a c) → List.Forall₂ T l n := by
  induction h₁ with
  | nil => intro n h₂ _; cases h₂; exact .nil
  | @cons a b l m hab _ ih =>
    intro n h₂ h
    obtain ⟨c, n, hbc, h₃, rfl⟩ := forall₂_cons_left_iff.mp h₂
    exact .cons (h a (by simp) b c hab hbc) (ih h₃ fun a ha => h a (mem_cons_of_mem _ ha))

theorem forall₂_append_left {A B : Type} {R : A → B → Prop} {l m : List A} : ∀ {n : List B},
    List.Forall₂ R (l ++ m) n → ∃ u v, n = u ++ v ∧ List.Forall₂ R l u ∧ List.Forall₂ R m v := by
  induction l with
  | nil => intro n h; exact ⟨[], n, rfl, .nil, h⟩
  | cons a l ih =>
    intro n h
    obtain ⟨b, n, hab, hrest, rfl⟩ := forall₂_cons_left_iff.mp h
    obtain ⟨u, v, rfl, hu, hv⟩ := ih hrest
    exact ⟨b :: u, v, rfl, .cons hab hu, hv⟩

theorem Adds.scopes {tenant : String} (a : ClauseAct) :
    ∀ {w w' : Where Tree}, Adds g a w → ScopesWhere g tenant w w' → Adds g a w' := by
  induction a using ClauseAct.ind with
  | compare =>
    intro w w' h hs
    cases h with
    | compare h =>
      cases hs with
      | plain => exact .compare h
      | whole hq | compared hq | group hq | other hq => cases hq
  | group k acts ih =>
    intro w w' h hs
    cases h with
    | @group _ _ b hc h =>
      cases hs with
      | plain hq => cases hq
      | whole _ ht => rcases ht with ht | ht <;> exact absurd ht (by dsimp only; decide)
      | compared _ ht | other _ ht => exact absurd ht (by dsimp only; decide)
      | group hq _ hs =>
        cases hq
        obtain ⟨_, _, hws, rfl⟩ := group_ok hs
        refine .group hc ?_
        have hih : ∀ a ∈ busy acts, ∀ w w', Adds g a w → ScopesWhere g tenant w w' → Adds g a w' :=
          fun a ha w w' => ih a (mem_of_mem_filter ha)
        exact forall₂_trans_of_mem h hws hih

/-- **The clauses of a finished statement**: the tenant's, the caller's as a group, what the
callbacks added, and the tenant's of the joined tables. -/
structure Finished (g : Grammar) (tenant : String) (column : Column) (acts : List ClauseAct)
    (r : Builder Tree) (gs added : List (Where Tree)) (ls : List String) : Prop where
  callbacks : r.callbacks = []
  wheres : r.wheres = tenantWhere column tenant :: gs ++ added ++ joinTenants tenant ls
  group : ∀ w ∈ gs, w.boolean = .and
  added : AddsAll g acts added
  others : ∀ l ∈ ls, Column.of l tenantColumn ≠ column

section Finish

variable {prog : Nat → List Action} {g : Grammar} {tenant : String} {column : Column}
  {acts : List ClauseAct}

/-- Settling a finished statement leaves it finished. -/
theorem Finished.settle {r : Builder Tree} {gs added : List (Where Tree)} {ls : List String}
    (h : Finished g tenant column acts r gs added ls) {t : Tree}
    (hs : settle prog g (.node r) = .ok t) : ∃ r' gs' added', t = .node r'
      ∧ Finished g tenant column acts r' gs' added' ls := by
  obtain ⟨f, _, hf, rfl⟩ := settle_of_called prog h.callbacks hs
  refine ⟨_, gs.map (Where.map f), added.map (Where.map f), rfl, h.callbacks, ?_, ?_, h.added.map hf,
    h.others⟩
  · have hjoin : (joinTenants tenant ls).map (Where.map f) = joinTenants tenant ls := by
      simp only [joinTenants, map_map]
      rfl
    show r.wheres.map (Where.map f) = _
    rw [h.wheres, map_append, map_append, map_cons, hjoin]
    rfl
  · intro w hw
    obtain ⟨w₀, hw₀, rfl⟩ := mem_map.mp hw
    exact h.group w₀ hw₀

/-- **What a scoped copy is**, whatever its callbacks do. -/
theorem scopedFor_finished {grant : Grant} {b : Builder Tree} {t : Tree}
    (h : scopedFor prog g grant (.node b) = .ok t) : ∃ r gs added ls, t = .node r
      ∧ Finished g grant.tenant (b.qualify tenantColumn) (actsWithin prog 64 b.callbacks) r gs added ls := by
  obtain ⟨tenant, hten, h⟩ := bind_eq_ok.mp h
  obtain rfl := tenantFor_ok hten
  obtain ⟨w, hw, h⟩ := bind_eq_ok.mp h
  obtain ⟨s, hs, hlast⟩ := bind_eq_ok.mp h
  obtain ⟨herr, f, ws, bs, _, rfl, hadds⟩ := settleRounds_ok prog 64 _ w hw
  have hb : b.err = none := by rwa [wrapTenant_err] at herr
  have hcalled : (b.wrapTenant g grant.tenant (.node b.withoutCallbacks)).callbacks = b.callbacks := by
    rw [wrapTenant_eq g hb]
  rw [show (Tree.node b).builder = b from rfl, hcalled] at hadds
  obtain ⟨_, ws', _, ls, _, -, hws', -, hseq, hls, -⟩ := scopeNested_ok (by exact herr) hs
  have hscopes : List.Forall₂ (ScopesWhere g grant.tenant)
      ((tenantWhere (b.qualify tenantColumn) grant.tenant
        :: if b.wheres.isEmpty then [] else [nestedWhere (f (.node b.withoutCallbacks))]) ++ ws) ws' := by
    have hall : List.Forall₂ (ScopesWhere g grant.tenant)
        (((b.wrapTenant g grant.tenant (.node b.withoutCallbacks)).map f).more ws bs []).wheres ws' :=
      (forall₂_map_left_iff (f := Where.map (decorate g grant.tenant)).mp hws').imp
        fun _ _ => scopesWhere_of_ok
    have hwrap : ((b.wrapTenant g grant.tenant (.node b.withoutCallbacks)).map f).wheres
        = tenantWhere (b.qualify tenantColumn) grant.tenant
          :: if b.wheres.isEmpty then [] else [nestedWhere (f (.node b.withoutCallbacks))] := by
      rw [wrapTenant_eq g hb]
      cases hw : b.wheres.isEmpty <;> rfl
    rw [← hwrap]
    exact hall
  -- The caller's part and the callbacks' go through `scopeSubqueries` side by side.
  obtain ⟨w₁, _, h₁, hrest, rfl⟩ := forall₂_cons_left_iff.mp hscopes
  obtain ⟨gs, added, rfl, hgs, hadded⟩ := forall₂_append_left hrest
  have hw₁ : w₁ = tenantWhere (b.qualify tenantColumn) grant.tenant := by
    cases h₁ with
    | plain => rfl
    | whole hq | compared hq | group hq | other hq => cases hq
  subst hw₁
  have hgroup : ∀ w ∈ gs, w.boolean = .and := by
    intro w hw
    obtain ⟨w₀, hm, hw₀⟩ := forall₂_mem_right hgs w hw
    have hand : w₀.boolean = .and := by
      split at hm
      · cases hm
      · rw [mem_singleton.mp hm]; rfl
    cases hw₀ <;> exact hand
  have hfinished : Finished g grant.tenant (b.qualify tenantColumn)
      (actsWithin prog 64 b.callbacks) s gs added ls :=
    { callbacks := by
        rw [hseq, dropSubqueries, clad, placeAll_frame]
        rfl
      wheres := by rw [hseq]; rfl
      group := hgroup
      added := forall₂_trans_of_mem hadds hadded fun a _ w w' => Adds.scopes a
      others := by
        intro l hl heq
        have := hls l hl
        rw [any_cons, heq] at this
        simp [filtersColumn, tenantWhere] at this }
  obtain ⟨r, gs', added', rfl, hr⟩ := hfinished.settle hlast
  exact ⟨r, gs', added', ls, rfl, hr⟩

end Finish

/-! ### Clauses that keep the tenant -/

mutual

/-- The clause is true of the tenant's rows only: it is the tenant's comparison, or a group
every alternative of which keeps the tenant. -/
def ClauseAct.keeps (g : Grammar) (tenant : String) (ref : Sql.ColRef) : ClauseAct → Bool
  | .compare _ column operator value =>
    (match column with | .name c => c.ref? = some ref | _ => false)
      && (normalizeOperator g.getOperators none operator).toOption = some "=" && value = .str tenant
  | .group _ acts => Sql.everyBlock (keepsAll g tenant ref acts)

/-- The word and the verdict of every clause that is added. -/
def keepsAll (g : Grammar) (tenant : String) (ref : Sql.ColRef) : List ClauseAct → List (Conn × Bool)
  | [] => []
  | a :: r =>
    if a.idle then keepsAll g tenant ref r else (a.word, a.keeps g tenant ref) :: keepsAll g tenant ref r

end

section Keeps

variable {g : Grammar} {tenant : String} {ref : Sql.ColRef}

theorem keepsAll_eq (acts : List ClauseAct) :
    keepsAll g tenant ref acts = (busy acts).map fun a => (a.word, a.keeps g tenant ref) := by
  induction acts with
  | nil => rfl
  | cons a r ih =>
    rw [keepsAll, ih, ClauseAct.busy_cons]
    cases a.idle <;> rfl

theorem map_eq_of_forall₂ {A B C : Type} {R : A → B → Prop} {f : A → C} {h : B → C} {l : List A}
    {m : List B} (hl : List.Forall₂ R l m) : (∀ a ∈ l, ∀ b, R a b → f a = h b) → l.map f = m.map h := by
  induction hl with
  | nil => intro _; rfl
  | @cons a b l m hab _ ih =>
    intro hf
    rw [map_cons, map_cons, hf a (by simp) b hab,
      ih fun a ha => hf a (mem_cons_of_mem _ ha)]

/-- A comparison reads `ref = tenant` when its column, operator and value say so. -/
theorem compares_equality (c : Column) (op : String) (value : Val) :
    (Cond.atom (Grammar.equality? (.name c) op value)
        (g.basicToks (g.wrap (.name c)) op value)).names (Cond.compares ref (.str tenant))
      = (decide (c.ref? = some ref) && decide (op = "=") && decide (value = .str tenant)) := by
  rw [Cond.names, Grammar.equality?]
  by_cases hop : op = "="
  · by_cases hv : value = .str tenant
    · subst hv hop
      cases hc : c.ref? with
      | none | some => simp [Cond.compares, Val.isExpression]
    · cases value.isExpression <;> cases c.ref? <;> simp [Cond.compares, hop, hv]
  · simp [Cond.compares, hop]

/-- The text of an added clause names the tenant's comparison exactly when its action keeps the
tenant. -/
theorem Adds.names (a : ClauseAct) : ∀ {w : Where Tree}, Adds g a w →
    (w.boolean, (g.compileWhere g.compile w).names (Cond.compares ref (.str tenant)))
      = (a.word, a.keeps g tenant ref) := by
  induction a using ClauseAct.ind with
  | compare k column _ value =>
    intro w h
    cases h with
    | @compare _ _ _ op _ h =>
      have ht : whereType "Basic" false = (.basic, false) := by decide
      simp only [Grammar.compileWhere, ht, ClauseAct.word, ClauseAct.keeps, h, Except.toOption,
        Option.some.injEq, Prod.mk.injEq, true_and]
      cases column with
      | name c => exact compares_equality c op value
      | expr => simp [Cond.names, Cond.compares, Grammar.equality?]
      | sub p q as =>
        cases p <;> cases as <;> simp [Cond.names, Cond.compares, Grammar.equality?]
  | group k _ ih =>
    intro w h
    cases h with
    | @group _ _ b _ h =>
      have ht : whereType "Nested" false = (.nested, false) := by decide
      simp only [Grammar.compileWhere, ht, ClauseAct.word, ClauseAct.keeps, Grammar.compile_wheres,
        Cond.names, Prod.mk.injEq, true_and]
      congr 1
      rw [Sql.namesAll_eq, keepsAll_eq, Grammar.whereClauses, map_map]
      exact (map_eq_of_forall₂ h fun a ha w hw => (ih a (mem_of_mem_filter ha) hw).symm).symm

theorem ClauseAct.word_not_neg {a : ClauseAct} (h : a.positive) : a.word.neg = false := by
  cases a with
  | compare => simpa [ClauseAct.positive, ClauseAct.word] using h
  | group =>
    rw [ClauseAct.positive, Bool.and_eq_true] at h
    simpa [ClauseAct.word] using h.1

theorem Adds.word (a : ClauseAct) {w : Where Tree} (h : Adds g a w) : w.boolean = a.word := by
  cases h <;> rfl

theorem AddsAll.positive_each {acts : List ClauseAct} {added : List (Where Tree)}
    (h : AddsAll g acts added) (hpos : ∀ a ∈ acts, a.positive
      ∧ ∀ w, Adds g a w → (g.compileWhere g.compile w).positive) :
    Sql.allPositive (g.whereClauses g.compile added) := by
  rw [Sql.allPositive_iff]
  intro q hq
  obtain ⟨w, hw, rfl⟩ := mem_map.mp hq
  obtain ⟨a, ha, hadd⟩ := forall₂_mem_right h w hw
  obtain ⟨ha, hw⟩ := hpos a (mem_of_mem_filter ha)
  refine ⟨?_, hw w hadd⟩
  rw [hadd.word]
  exact ClauseAct.word_not_neg ha

/-- What is added with `Where` and `OrWhere` has no `not` in it. -/
theorem Adds.positive (a : ClauseAct) : a.positive → ∀ {w : Where Tree}, Adds g a w →
    (g.compileWhere g.compile w).positive := by
  induction a using ClauseAct.ind with
  | compare =>
    intro _ w h
    cases h with
    | compare =>
      have ht : whereType "Basic" false = (.basic, false) := by decide
      simp only [Grammar.compileWhere, ht]
      split <;> rfl
  | group k _ ih =>
    intro hpos w h
    cases h with
    | @group _ _ b _ h =>
      have ht : whereType "Nested" false = (.nested, false) := by decide
      simp only [Grammar.compileWhere, ht, Grammar.compile_wheres, Cond.positive]
      rw [ClauseAct.positive, Bool.and_eq_true, ClauseAct.positiveAll_iff] at hpos
      exact AddsAll.positive_each h fun a ha => ⟨hpos.2 a ha, fun _ => ih a ha (hpos.2 a ha)⟩

variable {acts : List ClauseAct} {added : List (Where Tree)}

/-- The clauses a list of actions adds, as text. -/
theorem AddsAll.names (h : AddsAll g acts added) :
    Sql.namesAll (Cond.compares ref (.str tenant)) (g.whereClauses g.compile added)
      = keepsAll g tenant ref acts := by
  rw [Sql.namesAll_eq, keepsAll_eq, Grammar.whereClauses, map_map]
  exact (map_eq_of_forall₂ h fun a _ w hw => (hw.names a).symm).symm

theorem AddsAll.positive (h : AddsAll g acts added)
    (hpos : ClauseAct.positiveAll acts) :
    Sql.allPositive (g.whereClauses g.compile added) := by
  rw [ClauseAct.positiveAll_iff] at hpos
  exact h.positive_each fun a ha => ⟨hpos a ha, fun _ => Adds.positive a (hpos a ha)⟩

theorem Column.eq_of_ref? {c d : Column} {r : Sql.ColRef} (hc : c.ref? = some r)
    (hd : d.ref? = some r) : c = d := by
  obtain ⟨_, _⟩ := c
  obtain ⟨_, _⟩ := d
  simp only [Column.ref?, Bool.and_eq_true, List.isEmpty_iff, Option.isNone_iff_eq_none,
    Option.ite_none_right_eq_some, Option.some.injEq] at hc hd
  obtain ⟨⟨rfl, rfl⟩, rfl⟩ := hc
  obtain ⟨⟨rfl, rfl⟩, h⟩ := hd
  cases h
  rfl

/-- **The finished where list** entails the tenant's comparison exactly when every alternative
the callbacks open keeps the tenant. -/
theorem Finished.entails_iff {column : Column} {r : Builder Tree}
    {gs added : List (Where Tree)} {ls : List String} (h : Finished g tenant column acts r gs added ls)
    (href : column.ref? = some ref) (hpos : ClauseAct.positiveAll acts) :
    Sql.Entails (Cond.compares ref (.str tenant)) (g.whereClauses g.compile r.wheres)
      ↔ Sql.everyAlternative (keepsAll g tenant ref acts) := by
  obtain ⟨ts, htenant⟩ := compileWhere_tenant g g.compile column tenant
  rw [href] at htenant
  have hsplit : g.whereClauses g.compile r.wheres
      = g.whereClauses g.compile (tenantWhere column tenant :: gs)
        ++ (g.whereClauses g.compile added ++ g.whereClauses g.compile (joinTenants tenant ls)) := by
    rw [h.wheres]
    simp [Grammar.whereClauses]
  have hbase : Sql.Conj (g.whereClauses g.compile (tenantWhere column tenant :: gs)) := by
    intro q hq
    obtain ⟨w, hw, rfl⟩ := mem_map.mp hq
    rcases mem_cons.mp hw with rfl | hw
    · rfl
    · show w.boolean.disj = false
      rw [h.group w hw]
      rfl
  have hmem : (Conn.and, Cond.atom (some (ref, .str tenant)) ts)
      ∈ g.whereClauses g.compile (tenantWhere column tenant :: gs) := by
    rw [Grammar.whereClauses, map_cons, htenant]
    exact mem_cons_self
  -- The clauses of the joined tables are about other columns.
  have hjoins : ∀ q ∈ g.whereClauses g.compile (joinTenants tenant ls), q.1 = .and
      ∧ q.2.positive ∧ q.2.names (Cond.compares ref (.str tenant)) = false := by
    intro q hq
    rw [Grammar.whereClauses, joinTenants, map_map] at hq
    obtain ⟨l, hl, rfl⟩ := mem_map.mp hq
    obtain ⟨ts, hl'⟩ := compileWhere_tenant g g.compile (.of l tenantColumn) tenant
    simp only [Function.comp, hl']
    refine ⟨rfl, rfl, ?_⟩
    have hne : ref ≠ ⟨some l, tenantColumn⟩ := by
      rintro rfl
      exact h.others l hl (Column.eq_of_ref? rfl href)
    simp [Cond.names, Cond.compares, Ne.symm hne]
  rw [hsplit, Sql.entails_append_iff hbase hmem (by simp [Cond.compares])]
  · rw [Sql.namesAll_eq, map_append, ← Sql.namesAll_eq, ← Sql.namesAll_eq, h.added.names,
      Sql.everyAlternative_append_conj]
    · intro q hq
      rw [Sql.namesAll_eq] at hq
      obtain ⟨c, hc, rfl⟩ := mem_map.mp hq
      simp [(hjoins c hc).1]
      rfl
    · intro q hq
      rw [Sql.namesAll_eq] at hq
      obtain ⟨c, hc, rfl⟩ := mem_map.mp hq
      exact (hjoins c hc).2.2
  · rw [Sql.allPositive_iff]
    intro q hq
    rcases mem_append.mp hq with hq | hq
    · exact (Sql.allPositive_iff _).mp (h.added.positive hpos) q hq
    · exact ⟨by rw [(hjoins q hq).1]; rfl, (hjoins q hq).2.1⟩

end Keeps

/-! ### Statements -/

section Own

variable (g : Grammar)

theorem own_withTimeout (timeout : Option Nat) (q : Sql.Query Val) :
    (g.withTimeout timeout q).own = q.own := by
  unfold Grammar.withTimeout
  split
  · rfl
  · split
    · dsimp only
      split <;> rfl
    · rfl

theorem own_compileUnaggregated (b : Builder Tree) :
    (g.compileUnaggregated g.compile b).own = g.whereClauses g.compile b.wheres := by
  have hplain : (g.compilePlain g.compile b).own = g.whereClauses g.compile b.wheres := by
    unfold Grammar.compilePlain
    split <;> rfl
  rw [Grammar.compileUnaggregated, own_withTimeout]
  cases b.groupLimit with
  | none => exact hplain
  | some limit =>
    show (g.compileGroupLimit g.compile b limit).own = _
    unfold Grammar.compileGroupLimit
    split
    · rfl
    · split
      · rfl
      · exact hplain

/-- A select's own condition list is its builder's, whatever is written around it. -/
theorem own_compile (b : Builder Tree) :
    (g.compile (.node b)).query.own = g.whereClauses g.compile b.wheres := by
  rw [Grammar.compile_query, Grammar.compileSelect]
  cases b.aggregate with
  | none => exact own_compileUnaggregated g b
  | some =>
    dsimp only
    split
    · exact own_compileUnaggregated g b
    · rw [own_withTimeout]
      exact own_compileUnaggregated g { b with aggregate := none }

theorem own_rowIdSelect (s : Builder Tree) :
    (g.rowIdSelect s).own = g.whereClauses g.compile s.wheres :=
  own_compile g (s.select [.name (.of (Grammar.ownLabel s) g.rowId)])

theorem own_compileUpdate (json : Val → Option String) (s : Builder Tree)
    (values : KeyMap (Val × Val)) :
    (g.compileUpdate json s values).own = g.whereClauses g.compile s.wheres := by
  unfold Grammar.compileUpdate
  split
  · exact own_rowIdSelect g s
  · split <;> rfl

theorem own_compileDelete (s : Builder Tree) :
    (g.compileDelete s).own = g.whereClauses g.compile s.wheres := by
  unfold Grammar.compileDelete
  split
  · exact own_rowIdSelect g s
  · split <;> rfl

end Own

/-- The statements a caller asks for. -/
inductive Entry
  | get (columns : List ColArg)
  | update (values : KeyMap UpdateValue)
  | delete (id : Option Val)

/-- The where clause of the statement that is finally compiled. -/
def Entry.wheres (prog : Nat → List Action) (g : Grammar) (json : Val → Option String)
    (grant : Grant) (t : Tree) : Entry → Except Err (List (Conn × Cond Val))
  | .get columns => (Query.get prog g grant t columns).map fun s => s.query.own
  | .update values => (Query.update prog g json grant t values).map fun s => s.write.own
  | .delete id => (Query.delete prog g grant t id).map fun s => s.write.own

/-- The column the tenant's clause is about. -/
def Builder.tenantRef {Q : Type} (b : Builder Q) : Sql.ColRef :=
  ⟨(b.qualify tenantColumn).qualifier, tenantColumn⟩

theorem qualify_ref {Q : Type} (b : Builder Q) : (b.qualify tenantColumn).ref? = some b.tenantRef := by
  unfold Builder.tenantRef Builder.qualify
  split
  · split <;> rfl
  · rfl

section Statements

variable {prog : Nat → List Action} {g : Grammar} {json : Val → Option String} {grant : Grant} {b : Builder Tree}

theorem writeScoped_finished {t : Tree}
    (h : writeScoped prog g grant (.node b) = .ok t) : ∃ r gs added ls, t = .node r
      ∧ Finished g grant.tenant (b.qualify tenantColumn) (actsWithin prog 64 b.callbacks) r gs added ls := by
  unfold writeScoped at h
  split at h
  · exact scopedFor_finished h
  · cases h

/-- Every statement is compiled from a finished copy. -/
theorem Entry.wheres_ok (op : Entry) {cs : List (Conn × Cond Val)}
    (h : op.wheres prog g json grant (.node b) = .ok cs) : ∃ r gs added ls,
      cs = g.whereClauses g.compile r.wheres
      ∧ Finished g grant.tenant (b.qualify tenantColumn) (actsWithin prog 64 b.callbacks) r gs added ls := by
  cases op with
  | get columns =>
    obtain ⟨st, hst, rfl⟩ := map_eq_ok.mp h
    obtain ⟨t, ht, hst⟩ := bind_eq_ok.mp hst
    obtain ⟨p, hp, rfl⟩ := map_eq_ok.mp hst
    obtain ⟨-, rfl⟩ := toSql_eq_ok.mp hp
    obtain ⟨r, gs, added, ls, rfl, hr⟩ := scopedFor_finished ht
    exact ⟨r, gs, added, ls, own_compile g (r.choosing columns), hr⟩
  | update =>
    obtain ⟨st, hst, rfl⟩ := map_eq_ok.mp h
    obtain ⟨p, hp, rfl⟩ := map_eq_ok.mp hst
    obtain ⟨t, ht, hp⟩ := bind_eq_ok.mp hp
    obtain ⟨t₁, ht₁, hp⟩ := bind_eq_ok.mp hp
    obtain ⟨vs, -, hp⟩ := bind_eq_ok.mp hp
    obtain ⟨_, ht₂, rfl⟩ := map_eq_ok.mp hp
    obtain ⟨r, gs, added, ls, rfl, hr⟩ := writeScoped_finished ht
    -- `Update` drains twice more.
    obtain ⟨r₁, gs₁, added₁, rfl, hr₁⟩ := hr.settle ht₁
    obtain ⟨r₂, gs₂, added₂, rfl, hr₂⟩ := hr₁.settle ht₂
    exact ⟨r₂, gs₂, added₂, ls, own_compileUpdate g json r₂ vs, hr₂⟩
  | delete id =>
    obtain ⟨st, hst, rfl⟩ := map_eq_ok.mp h
    obtain ⟨t, ht, hst⟩ := bind_eq_ok.mp hst
    obtain ⟨t₁, ht₁, rfl⟩ := map_eq_ok.mp hst
    obtain ⟨r, gs, added, ls, rfl, hr⟩ := writeScoped_finished ht
    obtain ⟨r₁, gs₁, added₁, rfl, hr₁⟩ := hr.settle ht₁
    obtain ⟨-, -, -, htable, hcalled⟩ := forId_frame g b id
    have hqualify : (b.forId g id).qualify tenantColumn = b.qualify tenantColumn := by
      rw [Builder.qualify, Builder.qualify, htable]
    simp only [Tree.builder, hqualify, hcalled] at hr₁
    exact ⟨r₁, gs₁, added₁, ls, own_compileDelete g r₁, hr₁⟩

theorem actsWithin_positive
    (hprog : ∀ n, ClauseAct.positiveAll ((prog n).filterMap Action.clause?)) :
    ∀ (n : Nat) (cbs : List Nat), ClauseAct.positiveAll (actsWithin prog n cbs) := by
  intro n
  induction n with
  | zero => intro cbs; rfl
  | succ n ih =>
    intro cbs
    rw [ClauseAct.positiveAll_iff]
    intro a ha
    rcases mem_append.mp ha with ha | ha
    · obtain ⟨act, hact, hclause⟩ := mem_filterMap.mp ha
      obtain ⟨cb, -, hact⟩ := mem_flatMap.mp hact
      exact (ClauseAct.positiveAll_iff _).mp (hprog cb) a (mem_filterMap.mpr ⟨act, hact, hclause⟩)
    · exact (ClauseAct.positiveAll_iff _).mp (ih _) a ha

/-- **Callbacks and the tenant**: the where clause of a finished statement entails the tenant's
comparison, and so accepts rows with the tenant's value only, exactly when every alternative
its callbacks open with an `or` keeps the tenant.  The clause is read with each value at its own
placeholder; in what order the values are sent is not part of the statement. -/
theorem callbacks_keep_tenant_iff
    (hprog : ∀ n, ClauseAct.positiveAll ((prog n).filterMap Action.clause?) = true) (op : Entry)
    {t : Tree} {cs : List (Conn × Cond Val)} (h : op.wheres prog g json grant t = .ok cs) :
    (Sql.Entails (Cond.compares t.builder.tenantRef (.str grant.tenant)) cs
        ∧ ∀ (I : Sql.Interp Val) (D : Sql.Db Val) (env : Sql.Env Val),
          Sql.evalClauses id (Sql.clauseTruths I D cs env) = some true →
            env.value I t.builder.tenantRef = some (.str grant.tenant))
      ↔ Sql.everyAlternative (keepsAll g grant.tenant t.builder.tenantRef
          (actsWithin prog 64 t.builder.callbacks)) = true := by
  rw [and_iff_left_of_imp fun hent => Sql.value_of_entails hent]
  obtain ⟨b⟩ := t
  obtain ⟨r, _, _, _, rfl, hr⟩ := op.wheres_ok h
  exact hr.entails_iff (qualify_ref b) (actsWithin_positive hprog 64 b.callbacks)

/-- `users` with one callback registered. -/
def watchedUsers : Tree := .node { table := some (.table ⟨"users", none⟩), callbacks := [0] }

/-- The first callback registers a second, which adds `or (...)`. -/
def addsAlternative (acts : List ClauseAct) : Nat → List Action
  | 0 => [.clause (.compare .and (.name (.of "users" "active")) "=" (.int 1)), .beforeQuery 1]
  | 1 => [.clause (.group .or acts)]
  | _ => []

def isPublic : ClauseAct := .compare .and (.name (.of "users" "public")) "=" (.int 1)

def isOfAcme : ClauseAct := .compare .and (.name (.of "users" tenantColumn)) "=" (.str "acme")

/-- A public row of another tenant. -/
def publicRow : Sql.Row Val := fun column =>
  if column = tenantColumn then some (.str "other") else some (.int 1)

theorem callbacks_keep_tenant_delete :
    ∃ cs, Entry.wheres (addsAlternative [isPublic, isOfAcme]) (newGrammar .mysql) (fun _ => none)
        { tenant := "acme" } watchedUsers (.delete none) = .ok cs
      ∧ Sql.Entails (Cond.compares watchedUsers.builder.tenantRef (.str "acme")) cs
      ∧ ∀ (I : Sql.Interp Val) (D : Sql.Db Val) (env : Sql.Env Val),
          Sql.evalClauses id (Sql.clauseTruths I D cs env) = some true →
            env.value I watchedUsers.builder.tenantRef = some (.str "acme") := by
  refine exists_ok (P := fun _ => True) (by decide +kernel) fun cs h _ =>
    (callbacks_keep_tenant_iff (fun n => ?_) _ h).mpr (by decide +kernel)
  match n with
  | 0 => decide
  | 1 => decide
  | n + 2 => rfl

/-- With an alternative of its own the statement accepts another tenant's row. -/
theorem callback_accepts_other_tenant :
    ∃ cs, Entry.wheres (addsAlternative [isPublic]) (newGrammar .mysql) (fun _ => none)
        { tenant := "acme" } watchedUsers (.get []) = .ok cs
      ∧ ∃ env : Sql.Env Val, Sql.evalClauses id (Sql.clauseTruths lenientEngine (fun _ => []) cs env)
          = some true
        ∧ env.value lenientEngine watchedUsers.builder.tenantRef = some (.str "other") := by
  exact exists_ok (P := fun cs => Sql.evalClauses id (Sql.clauseTruths lenientEngine (fun _ => []) cs
    [[("users", some publicRow)]]) = some true) (by decide +kernel) fun cs _ hcs =>
      ⟨[[("users", some publicRow)]], hcs, by decide +kernel⟩

end Statements

end Hesape.Query
