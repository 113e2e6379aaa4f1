import Hesape.Migrations.Migrator
import Mathlib.Data.List.Induction

/-!
# What the record and the answers say

A name is recorded exactly when its `Up` completed and no `Down` since, at every moment of a call.  Every
row is written with an ordinal above all others and with a batch that is not below any other, so the order
the table is read in is the order the migrations ran in, after any partial rollback (`Ledger`).  A rollback
reads that order backwards, refuses before it undoes anything, and answers what it undid.

`Run` answers the names that were pending.  These are the names it applied only if all of them wanted to run
and none failed: a migration that is skipped is answered as well, and when one fails nothing is answered
though others were applied before it.  A run is `tellable` if neither happens, and if what is pretended comes
out as it would for real.
-/

namespace Hesape.Migrations

open List

/-! ### The history -/

/-- The applied names, in the order their `Up`s completed. -/
def standing (history : List Event) : List String :=
  history.foldl (fun names e =>
    match e with
    | .up name => names ++ [name]
    | .down name => names.filter (· ≠ name)) []

theorem standing_up (h : List Event) (name : String) : standing (h ++ [.up name]) = standing h ++ [name] := by
  simp [standing]

theorem standing_down (h : List Event) (name : String) :
    standing (h ++ [.down name]) = (standing h).filter (· ≠ name) := by
  simp [standing]

/-- A name stands if its last event is an `Up`. -/
theorem mem_standing {h : List Event} {name : String} :
    name ∈ standing h ↔ (h.filter (·.name = name)).getLast? = some (.up name) := by
  induction h using reverseRecOn with
  | nil => simp [standing]
  | append_singleton h e ih =>
    cases e with
    | up other =>
      rw [standing_up, mem_append, mem_singleton, ih]
      by_cases heq : other = name
      · subst heq
        simp [Event.name]
      · simp [Event.name, heq, Ne.symm heq]
    | down other =>
      rw [standing_down, mem_filter, ih]
      by_cases heq : other = name
      · subst heq
        simp [Event.name]
      · simp [Event.name, heq, Ne.symm heq]

/-! ### The table -/

/-- The rows are in the order the migrations ran in, and this is the order they are read in. -/
structure Ledger (rows : List Row) (history : List Event) : Prop where
  ordered : rows.Pairwise fun a b => a.id < b.id ∧ a.batch ≤ b.batch
  batches : ∀ r ∈ rows, 1 ≤ r.batch
  names : rows.map Row.migration = standing history
  once : (standing history).Nodup

/-- Sorting against the order reverses. -/
theorem insertionSort_eq_reverse {α : Type} {r : α → α → Prop} [DecidableRel r] {l : List α}
    (h : l.Pairwise fun a b => ¬ r a b) : l.insertionSort r = l.reverse := by
  have hinsert : ∀ {a : α} {l : List α}, (∀ b ∈ l, ¬ r a b) → l.orderedInsert r a = l ++ [a] := by
    intro a l hl
    induction l with
    | nil => rfl
    | cons b l ih =>
      rw [orderedInsert, if_neg (hl b mem_cons_self), ih fun c hc => hl c (mem_cons_of_mem _ hc)]
      rfl
  induction l with
  | nil => rfl
  | cons a l ih =>
    obtain ⟨ha, hl⟩ := pairwise_cons.mp h
    rw [insertionSort_cons, ih hl, hinsert fun b hb => ha b (mem_reverse.mp hb), reverse_cons]

theorem le_foldl_max {α : Type} {f : α → Nat} (l : List α) (start : Nat) :
    start ≤ l.foldl (fun most x => if most < f x then f x else most) start ∧
      ∀ x ∈ l, f x ≤ l.foldl (fun most x => if most < f x then f x else most) start := by
  induction l generalizing start with
  | nil => exact ⟨Nat.le_refl _, nofun⟩
  | cons a l ih =>
    obtain ⟨hstart, hmem⟩ := ih (if start < f a then f a else start)
    have hboth : start ≤ (if start < f a then f a else start) ∧ f a ≤ (if start < f a then f a else start) := by
      split <;> omega
    refine ⟨hboth.1.trans hstart, fun x hx => ?_⟩
    rcases mem_cons.mp hx with rfl | hx
    · exact hboth.2.trans hstart
    · exact hmem x hx

variable {rows : List Row}

theorem id_lt_nextID {r : Row} (hr : r ∈ rows) : r.id < nextID rows :=
  Nat.lt_succ_of_le ((le_foldl_max rows 0).2 r hr)

theorem batch_le_getLastBatchNumber {r : Row} (hr : r ∈ rows) : r.batch ≤ getLastBatchNumber rows :=
  (le_foldl_max rows 0).2 r hr

namespace Ledger

variable {rows : List Row} {history : List Event}

variable (h : Ledger rows history)
include h

theorem getRan : getRan rows = standing history := by
  have hsorted : rows.Pairwise Row.older := h.ordered.imp fun {a b} hab => by
    unfold Row.older
    omega
  rw [Migrations.getRan, hsorted.insertionSort_eq, h.names]

theorem getMigrationsByBatch (batch : Nat) :
    ((getMigrationsByBatch rows batch).map Row.migration).Sublist (standing history).reverse := by
  have hpair : (rows.filter (·.batch = batch)).Pairwise fun a b => ¬ a.later b :=
    (h.ordered.filter _).imp fun {a b} hab => by
      unfold Row.later
      omega
  rw [Migrations.getMigrationsByBatch, insertionSort_eq_reverse hpair, ← h.names, ← map_reverse]
  exact (filter_sublist.reverse).map _

theorem getMigrations (steps : Nat) :
    ((getMigrations rows steps).map Row.migration).Sublist (standing history).reverse := by
  have hpair : (rows.filter (1 ≤ ·.batch)).Pairwise fun a b => ¬ a.newer b :=
    (h.ordered.filter _).imp fun {a b} hab => by
      unfold Row.newer Row.older
      omega
  rw [Migrations.getMigrations, insertionSort_eq_reverse hpair, ← h.names, ← map_reverse]
  exact ((take_sublist _ _).trans filter_sublist.reverse).map _

theorem log {name : String} {batch : Nat} (hb : ∀ r ∈ rows, r.batch ≤ batch) (h1 : 1 ≤ batch)
    (hname : name ∉ standing history) : Ledger (log rows name batch) (history ++ [.up name]) where
  ordered := by
    refine pairwise_append.mpr ⟨h.ordered, pairwise_singleton _ _, fun a ha b hmem => ?_⟩
    cases mem_singleton.mp hmem
    exact ⟨id_lt_nextID ha, hb a ha⟩
  batches r hr := by
    rcases mem_append.mp hr with hr | hr
    · exact h.batches r hr
    · cases mem_singleton.mp hr
      exact h1
  names := by
    rw [standing_up, ← h.names]
    simp [Migrations.log]
  once := by
    rw [standing_up]
    exact nodup_append.mpr ⟨h.once, nodup_singleton _, fun a ha b hmem heq =>
      hname (by cases mem_singleton.mp hmem; exact heq ▸ ha)⟩

theorem delete (name : String) : Ledger (delete rows name) (history ++ [.down name]) where
  ordered := h.ordered.filter _
  batches r hr := h.batches r (mem_filter.mp hr).1
  names := by
    rw [standing_down, ← h.names, Migrations.delete, filter_map]
    rfl
  once := by
    rw [standing_down]
    exact h.once.filter _

end Ledger

/-! ### What is promised -/

/-- The events of a call that completed these names. -/
def Answer.events (a : Answer) (names : List String) : List Event :=
  names.map (if a.isDown then Event.down else Event.up)

/-- **An answer tells the truth.** -/
structure Answer.Truthful (a : Answer) : Prop where
  /-- The names are those that were applied, or undone, in the call. -/
  names : a.pretend = false → a.after = a.before ++ a.events a.names
  /-- Under `Pretend` they are those that would have been, and nothing happened. -/
  pretended : a.pretend = true → a.names = a.would ∧ a.after = a.before
  /-- What would have been done is what a call without `Pretend` does. -/
  would : a.pretend = false → a.after = a.before ++ a.events a.would
  /-- The `Down`s run in the reverse of the order of the `Up`s. -/
  reversed : a.isDown = true → a.would.Sublist (standing a.before).reverse
  /-- A refusal comes before anything is undone. -/
  refused : a.refused = true → a.names = [] ∧ a.after = a.before

/-- **The record and the answers tell the truth.** -/
structure State.Truthful (s : State) : Prop where
  recorded : ∀ name, (∃ r ∈ s.rows, r.migration = name) ↔
    (s.history.filter (·.name = name)).getLast? = some (.up name)
  once : (s.rows.map Row.migration).Nodup
  answers : ∀ a ∈ s.answers, a.Truthful

/-- Pretending fails where the real thing would. -/
def Attempt.agrees (attempt : Attempt) (names : List String) : Bool :=
  names.all fun name => (attempt.pretends name).isSome == (attempt.fails name).isSome

/-- `Run` can tell: every pending migration wants to run and succeeds, or the call fails before any is
applied. -/
def Attempt.tells (attempt : Attempt) (pretend : Bool) (pending : List Migration) : Bool :=
  let wanted := pending.filter Migration.shouldRun
  (pending.all fun x => x.shouldRun && (attempt.fails x.name).isNone) ||
    ((if pretend then pending else wanted).any (fun x => (attempt.fails x.name).isSome) &&
      wanted.head?.all fun x => (attempt.fails x.name).isSome)

/-- The condition on each step. -/
def State.tellable (m : Migrator) (s : State) : Action → Bool
  | .run paths options attempt =>
    let pending := m.pendingMigrations (m.getMigrationFiles paths) (getRan s.rows)
    (!options.pretend || attempt.agrees (pending.map Migration.name)) && attempt.tells options.pretend pending
  | .rollback _ options attempt =>
    !options.pretend || attempt.agrees ((s.getMigrationsForRollback options).map Row.migration)
  | .reset _ pretend attempt => !pretend || attempt.agrees (getRan s.rows).reverse
  | .next => true

/-! ### Calls -/

section Calls

variable {fails : String → Option String} {file : String → Option Migration}

theorem wouldApply_cons (x : Migration) (xs : List Migration) : wouldApply fails (x :: xs) =
    if x.shouldRun then
      if (fails x.name).isNone then x.name :: wouldApply fails xs else []
    else wouldApply fails xs := by
  unfold wouldApply
  rw [filter_cons]
  cases x.shouldRun with
  | false => rfl
  | true =>
    rw [if_pos rfl, if_pos rfl, map_cons, takeWhile_cons]

theorem wouldUndo_cons (name : String) (names : List String) : wouldUndo file fails (name :: names) =
    if (file name).any fun migration => !migration.irreversible then
      if (fails name).isNone then name :: wouldUndo file fails names else []
    else wouldUndo file fails names := by
  unfold wouldUndo
  rw [filter_cons]
  split
  · rw [takeWhile_cons]
  · rfl

variable {pending : List Migration} {attempt : Attempt}

theorem wouldApply_eq_names
    (h : ∀ x ∈ pending, x.shouldRun ∧ (fails x.name).isNone) :
    wouldApply fails pending = pending.map Migration.name := by
  induction pending with
  | nil => rfl
  | cons x _ ih =>
    obtain ⟨hrun, hok⟩ := h x mem_cons_self
    rw [wouldApply_cons, if_pos hrun, if_pos hok, ih fun y hy => h y (mem_cons_of_mem _ hy), map_cons]

theorem wouldApply_eq_nil
    (h : (pending.filter Migration.shouldRun).head?.all (fun x => (fails x.name).isSome)) :
    wouldApply fails pending = [] := by
  unfold wouldApply
  cases hwanted : pending.filter Migration.shouldRun with
  | nil => rfl
  | cons x =>
    rw [hwanted] at h
    have hx : (fails x.name).isNone = false := by simpa using h
    rw [map_cons, takeWhile_cons, hx]
    rfl

/-- A call of `Run` that fails has applied nothing. -/
theorem Attempt.would_of_fails {pretend : Bool}
    (h : attempt.tells pretend pending) {x : Migration} (hx : x ∈ pending)
    (hfails : (attempt.fails x.name).isSome) : wouldApply attempt.fails pending = [] := by
  simp only [Attempt.tells, Bool.or_eq_true, all_eq_true, Bool.and_eq_true] at h
  rcases h with h | ⟨-, h⟩
  · have := (h x hx).2
    rw [Option.isNone_iff_eq_none] at this
    simp [this] at hfails
  · exact wouldApply_eq_nil h

/-- One that does not has applied everything. -/
theorem Attempt.would_of_succeeds {pretend : Bool}
    (h : attempt.tells pretend pending)
    (hok : ∀ x ∈ pending, pretend ∨ x.shouldRun → attempt.fails x.name = none) :
    wouldApply attempt.fails pending = pending.map Migration.name := by
  simp only [Attempt.tells, Bool.or_eq_true, all_eq_true, Bool.and_eq_true] at h
  rcases h with h | ⟨h, -⟩
  · exact wouldApply_eq_names h
  · obtain ⟨x, hx, hfails⟩ := any_eq_true.mp h
    have hmem : x ∈ pending ∧ (pretend ∨ x.shouldRun) := by
      cases pretend with
      | true => exact ⟨hx, .inl rfl⟩
      | false => exact ⟨(mem_filter.mp hx).1, .inr (mem_filter.mp hx).2⟩
    simp [hok x hmem.1 hmem.2] at hfails

theorem Attempt.fails_of_agrees {names : List String} (h : attempt.agrees names)
    {name : String} (hname : name ∈ names) : (attempt.fails name).isSome = (attempt.pretends name).isSome := by
  have := all_eq_true.mp h name hname
  exact (eq_of_beq this).symm

end Calls

/-- A call is in its loop. -/
def Going (m : Migrator) (s : State) (call : Call) : Prop :=
  match call.loop with
  | .up pending remaining batch _ => ∃ processed completed,
      pending = processed ++ remaining ∧
      call.would = completed ++ wouldApply call.attempt.fails remaining ∧
      s.history = call.before ++ (if call.pretend then [] else completed.map Event.up) ∧
      (∀ x ∈ processed, if call.pretend then call.attempt.pretends x.name = none
        else x.shouldRun = true → call.attempt.fails x.name = none) ∧
      (call.would = wouldApply call.attempt.fails pending) ∧
      (∀ r ∈ s.rows, r.batch ≤ batch) ∧ 1 ≤ batch ∧
      (remaining.map Migration.name).Nodup ∧ (∀ x ∈ remaining, x.name ∉ standing s.history) ∧
      (call.pretend = true → call.attempt.agrees (pending.map Migration.name) = true) ∧
      call.attempt.tells call.pretend pending = true
  | .down paths rolledBack remaining =>
      call.would = rolledBack ++ wouldUndo (m.file paths) call.attempt.fails remaining ∧
      s.history = call.before ++ (if call.pretend then [] else rolledBack.map Event.down) ∧
      call.would.Sublist (standing call.before).reverse ∧
      (∀ name ∈ remaining, ∀ migration, m.file paths name = some migration → rollbackRefusal migration = none) ∧
      (call.pretend = true → call.attempt.agrees remaining = true)

structure Sound (m : Migrator) (s : State) : Prop where
  ledger : Ledger s.rows s.history
  going : ∀ call, s.call = some call → Going m s call
  answers : ∀ a ∈ s.answers, a.Truthful

namespace Sound

variable {m : Migrator} {s : State}

theorem truthful (h : Sound m s) : s.Truthful where
  recorded name := by
    rw [← mem_standing, ← h.ledger.names, mem_map]
  once := by
    rw [h.ledger.names]
    exact h.ledger.once
  answers := h.answers

theorem answerNow (h : Sound m s) (hcall : s.call = none) (isDown pretend refused : Bool) (error : Option String) :
    Sound m (s.answerNow isDown pretend refused error) := by
  refine ⟨h.ledger, fun call hc => ?_, fun a ha => ?_⟩
  · cases hcall.symm.trans hc
  · rcases mem_append.mp ha with ha | ha
    · exact h.answers a ha
    · cases mem_singleton.mp ha
      refine ⟨fun _ => ?_, fun _ => ⟨rfl, rfl⟩, fun _ => ?_, fun _ => nil_sublist _, fun _ => ⟨rfl, rfl⟩⟩
      · simp [Answer.events]
      · simp [Answer.events]

variable {call : Call} {x : Migration} {attempt : Attempt}

/-- The call in progress returns. -/
theorem answer (h : Sound m s) {isDown : Bool} {names : List String} {error : Option String}
    (hnames : names = call.would)
    (hhistory : s.history = call.before ++
      if call.pretend then [] else call.would.map (if isDown then Event.down else Event.up))
    (hreversed : isDown → call.would.Sublist (standing call.before).reverse) :
    Sound m (s.answer call isDown names error) := by
  refine ⟨h.ledger, nofun, fun a ha => ?_⟩
  rcases mem_append.mp ha with ha | ha
  · exact h.answers a ha
  · cases mem_singleton.mp ha
    subst hnames
    refine ⟨fun hp => ?_, fun hp => ⟨rfl, ?_⟩, fun hp => ?_, hreversed, nofun⟩
    · have hp : call.pretend = false := hp
      simpa [hp, Answer.events] using hhistory
    · have hp : call.pretend := hp
      simpa [hp] using hhistory
    · have hp : call.pretend = false := hp
      simpa [hp, Answer.events] using hhistory

theorem proceed (h : Sound m s) {loop : Loop} (hgoing : Going m s { call with loop := loop }) :
    Sound m (s.proceed call loop) := by
  refine ⟨h.ledger, fun call' hc => ?_, h.answers⟩
  cases hc
  exact hgoing

/-! ### Starting a call -/

theorem pendingMigrations_nodup (m : Migrator) (paths : List String) (ran : List String) :
    ((m.pendingMigrations (m.getMigrationFiles paths) ran).map Migration.name).Nodup := by
  have hfiles : ((m.getMigrationFiles paths).map Migration.name).Nodup := m.distinct.sublist (filter_sublist.map _)
  refine ((perm_insertionSort _ _).map _).nodup_iff.mpr (hfiles.sublist (filter_sublist.map _))

theorem mem_pendingMigrations {paths ran : List String}
    (hx : x ∈ m.pendingMigrations (m.getMigrationFiles paths) ran) : x.name ∉ ran := by
  have hx := (perm_insertionSort _ _).mem_iff.mp hx
  have := (mem_filter.mp hx).2
  simp only [contains_eq_mem, mem_append, Bool.not_eq_true', decide_eq_false_iff_not, not_or] at this
  exact this.1

variable (h : Sound m s)
include h

variable {paths : List String} {options : Options}

theorem run (hcall : s.call = none)
    (hok : s.tellable m (.run paths options attempt)) : Sound m (s.run m paths options attempt) := by
  simp only [State.tellable, Bool.and_eq_true, Bool.or_eq_true, Bool.not_eq_true'] at hok
  unfold State.run
  dsimp only
  split
  · exact h.answerNow hcall false options.pretend false none
  · refine ⟨h.ledger, fun call hc => ?_, h.answers⟩
    cases hc
    refine ⟨[], [], rfl, rfl, ?_, nofun, rfl, fun r hr => ?_, Nat.succ_le_succ (Nat.zero_le _),
      pendingMigrations_nodup m paths _, fun x hx => ?_, fun hp => ?_, hok.2⟩
    · rw [map_nil, ite_self, append_nil]
      rfl
    · exact Nat.le_succ_of_le (batch_le_getLastBatchNumber hr)
    · have := mem_pendingMigrations hx
      rwa [h.ledger.getRan] at this
    · have hp : options.pretend := hp
      exact hok.1.resolve_left (by simp [hp])

theorem rollbackMigrations (hcall : s.call = none) {pretend : Bool}
    {records : List String} (hrecords : records.Sublist (standing s.history).reverse)
    (hok : pretend → attempt.agrees records) :
    Sound m (s.rollbackMigrations m paths pretend attempt records) := by
  unfold State.rollbackMigrations
  cases hcheck : checkBatchCanRollBack (m.file paths) records with
  | some refusal => exact h.answerNow hcall true pretend true (some refusal)
  | none =>
    refine ⟨h.ledger, fun call hc => ?_, h.answers⟩
    cases hc
    refine ⟨rfl, ?_, ?_, fun name hname migration hfile => ?_, hok⟩
    · rw [map_nil, ite_self, append_nil]
      rfl
    · exact (takeWhile_sublist _).trans (filter_sublist.trans hrecords)
    · have := findSome?_eq_none_iff.mp (Option.map_eq_none_iff.mp hcheck) name hname
      rwa [hfile] at this

theorem getMigrationsForRollback (options : Options) :
    ((s.getMigrationsForRollback options).map Row.migration).Sublist (standing s.history).reverse := by
  unfold State.getMigrationsForRollback
  split
  · exact h.ledger.getMigrations _
  · split
    · exact h.ledger.getMigrationsByBatch _
    · exact h.ledger.getMigrationsByBatch _

theorem rollback (hcall : s.call = none)
    (hok : s.tellable m (.rollback paths options attempt)) : Sound m (s.rollback m paths options attempt) := by
  simp only [State.tellable, Bool.or_eq_true, Bool.not_eq_true'] at hok
  unfold State.rollback
  dsimp only
  split
  · exact h.answerNow hcall true options.pretend false none
  · exact h.rollbackMigrations hcall (h.getMigrationsForRollback options) fun hp => hok.resolve_left (by simp [hp])

theorem reset (hcall : s.call = none) {pretend : Bool}
    (hok : s.tellable m (.reset paths pretend attempt)) : Sound m (s.reset m paths pretend attempt) := by
  simp only [State.tellable, Bool.or_eq_true, Bool.not_eq_true'] at hok
  unfold State.reset
  dsimp only
  split
  · exact h.answerNow hcall true pretend false none
  · refine h.rollbackMigrations hcall ?_ fun hp => hok.resolve_left (by simp [hp])
    rw [h.ledger.getRan]

/-! ### The loops -/

variable (hcall : s.call = some call)
include hcall

theorem runUp {pending rest : List Migration}
    {batch : Nat} {step : Bool} (hloop : call.loop = .up pending (x :: rest) batch step) :
    Sound m (s.runUp call pending x rest batch step) := by
  have hg := h.going call hcall
  unfold Going at hg
  rw [hloop] at hg
  obtain ⟨processed, completed, hpending, hwould, hhistory, hok, hall, hbatch, h1, hnodup, hfresh, hagrees, htells⟩ := hg
  have hx : x ∈ pending := by
    rw [hpending]
    exact mem_append_right _ mem_cons_self
  have hsplit : pending = (processed ++ [x]) ++ rest := by rw [hpending, append_assoc]; rfl
  obtain ⟨hxrest, hnodup'⟩ := nodup_cons.mp (map_cons ▸ hnodup)
  have hbatch' : ∀ r ∈ s.rows, r.batch ≤ if step then batch + 1 else batch := by
    intro r hr
    have := hbatch r hr
    split <;> omega
  have h1' : 1 ≤ if step then batch + 1 else batch := by split <;> omega
  have hprocessed : ∀ {y}, y ∈ processed ++ [x] → y ∈ processed ∨ y = x := by
    intro y hy
    simpa using hy
  unfold State.runUp
  cases hp : call.pretend with
  | true =>
    rw [hp] at hhistory hok
    have hagree := Attempt.fails_of_agrees (hagrees hp) (mem_map_of_mem hx)
    cases hpretends : call.attempt.pretends x.name with
    | some =>
      rw [hpretends] at hagree
      refine h.answer ?_ (by simpa [hp] using hhistory) nofun
      rw [hall, Attempt.would_of_fails htells hx hagree]
    | none =>
      rw [hpretends] at hagree
      have hnone : (call.attempt.fails x.name).isNone := by simpa using hagree
      refine h.proceed ⟨processed ++ [x], if x.shouldRun then completed ++ [x.name] else completed, hsplit, ?_, ?_, ?_, hall,
        hbatch', h1', hnodup', fun y hy => hfresh y (mem_cons_of_mem _ hy), hagrees, htells⟩
      · rw [hwould, wouldApply_cons, if_pos hnone]
        cases x.shouldRun <;> simp
      · simpa [hp] using hhistory
      · intro y hy
        simp only [hp, if_true]
        rcases hprocessed hy with hy | rfl
        · exact hok y hy
        · exact hpretends
  | false =>
    rw [hp] at hhistory hok
    rw [if_neg Bool.false_ne_true]
    cases hrun : x.shouldRun with
    | false =>
      refine h.proceed ⟨processed ++ [x], completed, hsplit, ?_, by simpa [hp] using hhistory, ?_, hall,
        hbatch', h1', hnodup', fun y hy => hfresh y (mem_cons_of_mem _ hy), hagrees, htells⟩
      · rw [hwould, wouldApply_cons, hrun]
        rfl
      · intro y hy
        simp only [hp, Bool.false_eq_true, if_false]
        rcases hprocessed hy with hy | rfl
        · exact hok y hy
        · exact fun hrun' => absurd (hrun.symm.trans hrun') Bool.false_ne_true
    | true =>
      cases hfails : call.attempt.fails x.name with
      | some =>
        have hsome : (call.attempt.fails x.name).isSome := by rw [hfails]; rfl
        have hnil := Attempt.would_of_fails htells hx hsome
        refine h.answer (by rw [hall, hnil]) ?_ nofun
        have hcompleted : completed = [] := (append_eq_nil_iff.mp (hwould.symm.trans (hall.trans hnil))).1
        rw [hall, hnil, hp, hhistory, hcompleted]
        rfl
      | none =>
        have hledger := h.ledger.log hbatch h1 (hfresh x mem_cons_self)
        have hsound : Sound m { s.applied x.name batch with call := none } := ⟨hledger, nofun, h.answers⟩
        refine hsound.proceed ⟨processed ++ [x], completed ++ [x.name], hsplit, ?_, ?_, ?_, hall, ?_, h1', hnodup', ?_,
          hagrees, htells⟩
        · rw [hwould, wouldApply_cons, hrun, hfails]
          simp
        · show s.history ++ [.up x.name] = _
          rw [hhistory]
          simp [hp]
        · intro y hy
          simp only [hp, Bool.false_eq_true, if_false]
          rcases hprocessed hy with hy | rfl
          · exact hok y hy
          · exact fun _ => hfails
        · intro r hr
          rcases mem_append.mp hr with hr | hr
          · exact hbatch' r hr
          · cases mem_singleton.mp hr
            show batch ≤ _
            split <;> omega
        · intro y hy
          show y.name ∉ standing (s.history ++ [.up x.name])
          rw [standing_up, mem_append, mem_singleton]
          rintro (hin | heq)
          · exact hfresh y (mem_cons_of_mem _ hy) hin
          · exact hxrest (heq ▸ mem_map_of_mem hy)

theorem runDown {paths rolledBack rest : List String}
    {name : String} (hloop : call.loop = .down paths rolledBack (name :: rest))
    (hfile : m.file paths name = some x) : Sound m (s.runDown call paths rolledBack x name rest) := by
  have hg := h.going call hcall
  unfold Going at hg
  rw [hloop] at hg
  obtain ⟨hwould, hhistory, hsub, hrefusal, hagrees⟩ := hg
  have hrest : ∀ n ∈ rest, ∀ y, m.file paths n = some y → rollbackRefusal y = none :=
    fun n hn => hrefusal n (mem_cons_of_mem _ hn)
  have hagrees' : call.pretend → call.attempt.agrees rest := by
    intro hp
    exact all_eq_true.mpr fun n hn => all_eq_true.mp (hagrees hp) n (mem_cons_of_mem _ hn)
  -- where the loop stops, what has been undone is all that would be
  have hstop : x.irreversible = false → (call.attempt.fails name).isSome → rolledBack = call.would := by
    intro hx hfails
    rw [hwould, wouldUndo_cons, hfile]
    simp [hx, Option.isSome_iff_ne_none.mp hfails]
  have hgo : x.irreversible = false → (call.attempt.fails name).isNone →
      call.would = (rolledBack ++ [name]) ++ wouldUndo (m.file paths) call.attempt.fails rest := by
    intro hx hfails
    rw [hwould, wouldUndo_cons, hfile, if_pos (by simp [hx]), if_pos hfails, append_assoc]
    rfl
  unfold State.runDown
  rw [hrefusal name mem_cons_self x hfile]
  cases hx : x.irreversible with
  | true =>
    refine h.proceed ⟨?_, hhistory, hsub, hrest, hagrees'⟩
    rw [hwould, wouldUndo_cons, hfile, if_neg (by simp [hx])]
  | false =>
    cases hp : call.pretend with
    | true =>
      have hagree := Attempt.fails_of_agrees (hagrees hp) mem_cons_self
      cases hpretends : call.attempt.pretends name with
      | some =>
        rw [hpretends] at hagree
        exact h.answer (hstop hx hagree) (by simpa [hp] using hhistory) fun _ => hsub
      | none =>
        rw [hpretends] at hagree
        have hnone : (call.attempt.fails name).isNone := by simpa using hagree
        exact h.proceed ⟨hgo hx hnone, by simpa [hp] using hhistory, hsub, hrest, hagrees'⟩
    | false =>
      cases hfails : call.attempt.fails name with
      | some =>
        have hall := hstop hx (by rw [hfails]; rfl)
        refine h.answer hall ?_ fun _ => hsub
        rw [← hall]
        simpa [hp] using hhistory
      | none =>
        have hsound : Sound m { s.reverted name with call := none } := ⟨h.ledger.delete name, nofun, h.answers⟩
        refine hsound.proceed ⟨hgo hx (by rw [hfails]; rfl), ?_, hsub, hrest, hagrees'⟩
        show s.history ++ [.down name] = _
        rw [hhistory]
        simp [hp]

/-- **A round of the loop.** -/
theorem next : Sound m (s.next m call) := by
  have hg := h.going call hcall
  unfold Going at hg
  unfold State.next
  cases hloop : call.loop with
  | up _ remaining =>
    cases remaining with
    | cons => exact h.runUp hcall hloop
    | nil =>
      rw [hloop] at hg
      obtain ⟨_, completed, hpending, hwould, hhistory, hok, hall, -, -, -, -, hagrees, htells⟩ := hg
      rw [append_nil] at hpending
      subst hpending
      have hcompleted : call.would = completed := hwould.trans (append_nil _)
      refine h.answer ?_ (by rw [hhistory, hcompleted]; rfl) nofun
      rw [hall]
      refine (Attempt.would_of_succeeds htells fun x hx hwants => ?_).symm
      have hokx := hok x hx
      cases hp : call.pretend with
      | true =>
        rw [hp, if_pos rfl] at hokx
        have := Attempt.fails_of_agrees (hagrees hp) (mem_map_of_mem hx)
        rw [hokx] at this
        simpa using this
      | false =>
        rw [hp, if_neg Bool.false_ne_true] at hokx
        exact hokx (hwants.resolve_left (by simp [hp]))
  | down paths rolledBack remaining =>
    cases remaining with
    | nil =>
      rw [hloop] at hg
      obtain ⟨hwould, hhistory, hsub, -⟩ := hg
      have hall : call.would = rolledBack := hwould.trans (append_nil _)
      exact h.answer hall.symm (by rw [hhistory, hall]; rfl) fun _ => hsub
    | cons name =>
      dsimp only
      cases hfile : m.file paths name with
      | some => exact h.runDown hcall hloop hfile
      | none =>
        rw [hloop] at hg
        obtain ⟨hwould, hhistory, hsub, hrefusal, hagrees⟩ := hg
        refine h.proceed ⟨?_, hhistory, hsub, fun n hn => hrefusal n (mem_cons_of_mem _ hn), fun hp => ?_⟩
        · rw [hwould, wouldUndo_cons, hfile]
          rfl
        · exact all_eq_true.mpr fun n hn => all_eq_true.mp (hagrees hp) n (mem_cons_of_mem _ hn)

omit hcall

/-- **A step keeps the invariant.** -/
theorem step {a : Action} {t : State} (hok : s.tellable m a) (ht : s.step m a = some t) :
    Sound m t := by
  cases a with
  | run =>
    obtain ⟨hcall, ht⟩ := Option.ite_none_right_eq_some.mp ht
    cases ht
    exact h.run (Option.isNone_iff_eq_none.mp hcall) hok
  | rollback =>
    obtain ⟨hcall, ht⟩ := Option.ite_none_right_eq_some.mp ht
    cases ht
    exact h.rollback (Option.isNone_iff_eq_none.mp hcall) hok
  | reset =>
    obtain ⟨hcall, ht⟩ := Option.ite_none_right_eq_some.mp ht
    cases ht
    exact h.reset (Option.isNone_iff_eq_none.mp hcall) hok
  | next =>
    obtain ⟨_, hcall, rfl⟩ := Option.map_eq_some_iff.mp ht
    exact h.next hcall

omit h

theorem initial : Sound m State.initial :=
  ⟨⟨List.Pairwise.nil, nofun, rfl, nodup_nil⟩, nofun, nofun⟩

end Sound

/-- **In every run that can tell, the record and the answers tell the truth.** -/
theorem record_and_answers_true (m : Migrator) {t : State}
    (h : Run.Reach (State.step m) (State.tellable m) State.initial t) : t.Truthful :=
  (h.invariant (I := Sound m) .initial fun _ _ _ hs hok ht => hs.step hok ht).truthful

/-- Three migrations, of which the second cannot be undone and the third may not want to run. -/
def threeMigrations (shouldRun : Bool) : Migrator where
  registry := [⟨"c", "", shouldRun, true, false⟩, ⟨"a", "", true, true, false⟩, ⟨"b", "", true, false, true⟩]
  distinct := by
    show ["c", "a", "b"].Nodup
    decide
  paths := []
  skippedMigrations := []

/-- Nothing fails but what is named. -/
def failing (names : List String) : Attempt :=
  ⟨fun name => if names.contains name then some "no such table" else none,
    fun name => if names.contains name then some "no such table" else none⟩

/-- A pretended run, a run in steps, a rollback of two that passes over the irreversible one, and a reset that
stops at a failure. -/
theorem record_and_answers_true_in_turn :
    ∃ t, Run.Reach (State.step (threeMigrations true)) (State.tellable (threeMigrations true)) State.initial t ∧
      (t.answers.map Answer.names == [["a", "b", "c"], ["a", "b", "c"], ["c"], []] &&
        t.rows == [⟨1, "a", 1⟩, ⟨2, "b", 2⟩]) = true ∧ t.Truthful := by
  obtain ⟨t, hreach, hlog⟩ : ∃ t, Run.Reach (State.step (threeMigrations true)) (State.tellable (threeMigrations true))
      State.initial t ∧ (t.answers.map Answer.names == [["a", "b", "c"], ["a", "b", "c"], ["c"], []] &&
        t.rows == [⟨1, "a", 1⟩, ⟨2, "b", 2⟩]) :=
    Run.exists_reach
      [.run [] ⟨true, false, 0, 0⟩ (failing []), .next, .next, .next, .next,
        .run [] ⟨false, true, 0, 0⟩ (failing []), .next, .next, .next, .next,
        .rollback [] ⟨false, false, 2, 0⟩ (failing []), .next, .next, .next,
        .reset [] false (failing ["a"]), .next, .next] (by decide +kernel)
  exact ⟨t, hreach, hlog, record_and_answers_true (threeMigrations true) hreach⟩

/-- **`Run` answers what was pending.**  A migration that does not want to run is answered and was not applied,
for real and under `Pretend`; and when one fails, nothing is answered though another was applied. -/
theorem run_answers_pending :
    (Run.follow (State.step (threeMigrations false)) (fun _ _ => true) State.initial
      [.run [] {} (failing []), .next, .next, .next, .next]).any
      (fun t => t.answers.map Answer.names == [["a", "b", "c"]] && t.history == [.up "a", .up "b"]) = true ∧
    (Run.follow (State.step (threeMigrations false)) (fun _ _ => true) State.initial
      [.run [] ⟨true, false, 0, 0⟩ (failing []), .next, .next, .next, .next]).any
      (fun t => t.answers.map Answer.names == [["a", "b", "c"]] && t.answers.map Answer.would == [["a", "b"]]) = true ∧
    (Run.follow (State.step (threeMigrations true)) (fun _ _ => true) State.initial
      [.run [] {} (failing ["b"]), .next, .next]).any
      (fun t => t.answers.map Answer.names == [[]] && t.history == [.up "a"]) = true := by
  decide +kernel

end Hesape.Migrations
