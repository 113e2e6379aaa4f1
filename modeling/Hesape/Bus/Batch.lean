import Hesape.Run.Reach
import Mathlib.Data.List.Perm.Basic
import Mathlib.Data.List.Sort
import Mathlib.Tactic.Linarith

/-!
# Batches of jobs

A batch counts the jobs that have not succeeded and the jobs that have failed.  A job that succeeds
takes one from the first and its id from the failed list; a job that fails puts its id there.  The
callbacks are decided by the counters alone, as the report has left them: `Then` when nothing is
pending, `Catch` when one job has failed, `Finally` when as many have failed as are pending.

The repository changes the counters in one piece, and the report pushes the callbacks after that, so
a run is an interleaving of reports (`Act.report`) and of what they have still to do (`Act.go`).

The counters say what they are meant to as long as no job reports twice (`Tracks`).  `tidy` is a
condition that allows more: a failed job may be retried, or fail again, where the counters do not
pass the numbers the callbacks wait for a second time.
-/

namespace Hesape.Bus

open Hesape.Run (Reach sum_countP_set_add)
open List

/-- The moments a batch has a callback for. -/
inductive Moment
  | before | progress | then_ | catch_ | failure | finally_
  deriving DecidableEq

/-- The settings of a batch: a callback, or none, for each moment. -/
structure Options (σ : Type) where
  before : Option σ := none
  progress : Option σ := none
  then_ : Option σ := none
  catch_ : Option σ := none
  failure : Option σ := none
  finally_ : Option σ := none
  allowFailures : Bool := false
  queue : String := ""
  deriving DecidableEq

def Options.callback {σ : Type} (o : Options σ) : Moment → Option σ
  | .before => o.before
  | .progress => o.progress
  | .then_ => o.then_
  | .catch_ => o.catch_
  | .failure => o.failure
  | .finally_ => o.finally_

structure Batch (σ : Type) where
  totalJobs : Nat
  pendingJobs : Int
  failedJobs : Int := 0
  failedJobIDs : List String := []
  options : Options σ
  cancelled : Bool := false
  finished : Bool := false
  deriving DecidableEq

/-- What a report does after the counters have changed. -/
inductive Deed (σ : Type)
  | push (m : Moment) (s : σ)
  | markAsFinished
  | cancel

variable {σ : Type}

/-- The batch of `n` jobs as the repository stores it. -/
def Batch.store (n : Nat) (options : Options σ) : Batch σ :=
  { totalJobs := n, pendingJobs := n, options }

/-! ### The repository -/

def withFailure (ids : List String) (jobID : String) : List String :=
  if jobID = "" ∨ jobID ∈ ids then ids else (ids ++ [jobID]).insertionSort (· ≤ ·)

def withoutFailure (ids : List String) (jobID : String) : List String :=
  if jobID = "" then ids else ids.filter (· ≠ jobID)

def Batch.decrementPendingJobs (b : Batch σ) (jobID : String) : Batch σ :=
  { b with
    pendingJobs := b.pendingJobs - 1
    failedJobIDs := withoutFailure b.failedJobIDs jobID
    failedJobs := (withoutFailure b.failedJobIDs jobID).length }

def Batch.incrementFailedJobs (b : Batch σ) (jobID : String) : Batch σ :=
  if jobID = "" then { b with failedJobs := b.failedJobs + 1 }
  else
    { b with
      failedJobIDs := withFailure b.failedJobIDs jobID
      failedJobs := (withFailure b.failedJobIDs jobID).length }

/-! ### The reports -/

def Batch.allJobsHaveRanExactlyOnce (b : Batch σ) : Bool := b.pendingJobs - b.failedJobs = 0

def Batch.callback (b : Batch σ) (m : Moment) : List (Deed σ) :=
  ((b.options.callback m).map (Deed.push m)).toList

def Batch.recordSuccessfulJob (b : Batch σ) (jobID : String) : Batch σ × List (Deed σ) :=
  let after := b.decrementPendingJobs jobID
  (after,
    after.callback .progress ++
    (if after.pendingJobs = 0 then .markAsFinished :: after.callback .then_ else []) ++
    if after.allJobsHaveRanExactlyOnce then after.callback .finally_ else [])

def Batch.recordFailedJob (b : Batch σ) (jobID : String) : Batch σ × List (Deed σ) :=
  let after := b.incrementFailedJobs jobID
  (after,
    (if after.failedJobs = 1 ∧ !after.options.allowFailures then [.cancel] else []) ++
    (if after.options.allowFailures then after.callback .progress ++ after.callback .failure else []) ++
    (if after.failedJobs = 1 then after.callback .catch_ else []) ++
    if after.allJobsHaveRanExactlyOnce then after.callback .finally_ else [])

def Batch.record (b : Batch σ) (jobID : String) : Bool → Batch σ × List (Deed σ)
  | true => b.recordSuccessfulJob jobID
  | false => b.recordFailedJob jobID

def Batch.perform (b : Batch σ) : Deed σ → Batch σ
  | .push _ _ => b
  | .markAsFinished => { b with finished := true }
  | .cancel => { b with cancelled := true, finished := true }

def Deed.pushes (m : Moment) : Deed σ → Bool
  | .push m' _ => m' = m
  | _ => false

/-- The moment whose callback is pushed. -/
def Deed.moment : Deed σ → Option Moment
  | .push m _ => some m
  | _ => none

/-! ### The runs -/

structure Report where
  job : String
  ok : Bool
  deriving DecidableEq

def succeeded (reports : List Report) (j : String) : Bool := reports.any fun r => r.job = j && r.ok

def reported (reports : List Report) (j : String) : Bool := reports.any (·.job = j)

/-- A batch with its jobs: the reports so far, what each of them has still to do, and the callbacks
that were pushed. -/
structure Running (σ : Type) where
  batch : Batch σ
  jobs : List String
  reports : List Report := []
  todo : List (List (Deed σ)) := []
  pushed : List Moment := []

inductive Act
  | report (job : String) (ok : Bool)
  | go (i : Nat)

def Running.step (s : Running σ) : Act → Option (Running σ)
  | .report job ok =>
    if job ∈ s.jobs then
      let (batch, deeds) := s.batch.record job ok
      some { s with batch, reports := s.reports ++ [⟨job, ok⟩], todo := s.todo ++ [deeds] }
    else none
  | .go i =>
    match s.todo[i]? with
    | some (deed :: rest) =>
      some
        { s with
          batch := s.batch.perform deed
          todo := s.todo.set i rest
          pushed := s.pushed ++ deed.moment.toList }
    | _ => none

/-- A job succeeds once, and after a failure only while some job has not reported; it fails before
it has succeeded, for the first time while no other failure was made good, and again only while
some other job stands failed and some job has not reported. -/
def tidyReport (failed : List String) (jobs : List String) (reports : List Report) (j : String) : Bool → Bool
  | true => !succeeded reports j && (j ∉ failed || jobs.any fun i => !reported reports i)
  | false =>
    if j ∈ failed then 2 ≤ failed.length && jobs.any fun i => !reported reports i
    else !reported reports j && (failed ≠ [] || reports.all (·.ok))

def Running.tidy (s : Running σ) : Act → Bool
  | .report j ok => tidyReport s.batch.failedJobIDs s.jobs s.reports j ok
  | .go _ => true

/-! ### Counting -/

variable {α : Type}

/-- One more element of a list without repetitions has a property. -/
theorem countP_one_more [DecidableEq α] {p q : α → Bool} {a : α} :
    ∀ {l : List α}, l.Nodup → a ∈ l → p a → q a = false → (∀ x, x ≠ a → q x = p x) →
      l.countP p = l.countP q + 1 := by
  intro l
  induction l with
  | nil =>
    intro _ ha
    cases ha
  | cons b l ih =>
    intro hl ha hp hq hsame
    obtain ⟨hb, hl⟩ := nodup_cons.mp hl
    rw [countP_cons, countP_cons]
    by_cases he : b = a
    · subst he
      have hrest : l.countP q = l.countP p := by
        refine countP_congr fun x hx => ?_
        rw [hsame x (by rintro rfl; exact hb hx)]
      rw [hrest, hp, hq]
      simp
    · have ha : a ∈ l := (mem_cons.mp ha).resolve_left (Ne.symm he)
      have := ih hl ha hp hq hsame
      rw [this, hsame b he]
      omega

theorem succeeded_snoc (reports : List Report) (r : Report) (i : String) :
    succeeded (reports ++ [r]) i = (succeeded reports i || (decide (r.job = i) && r.ok)) := by
  simp [succeeded]

theorem reported_snoc (reports : List Report) (r : Report) (i : String) :
    reported (reports ++ [r]) i = (reported reports i || decide (r.job = i)) := by
  simp [reported]

variable {reports : List Report}

theorem reported_of_succeeded {j : String} (h : succeeded reports j) :
    reported reports j := by
  obtain ⟨r, hr, he⟩ := any_eq_true.mp h
  exact any_eq_true.mpr ⟨r, hr, (Bool.and_eq_true_iff.mp he).1⟩

theorem not_succeeded_of_not_reported {j : String} (h : reported reports j = false) :
    succeeded reports j = false := by
  rw [Bool.eq_false_iff] at h ⊢
  exact fun hs => h (reported_of_succeeded hs)

/-- A job that has reported and not succeeded has failed. -/
theorem exists_failure {j : String} (h : reported reports j)
    (hs : succeeded reports j = false) : reports.all (·.ok) = false := by
  obtain ⟨r, hr, he⟩ := any_eq_true.mp h
  rw [all_eq_false]
  refine ⟨r, hr, fun hok => ?_⟩
  have := any_eq_false.mp hs r hr
  rw [he, hok] at this
  exact this rfl

/-! ### What the counters say -/

/-- The counters of a batch are what the reports make them. -/
structure Counted (b : Batch σ) (jobs : List String) (reports : List Report) : Prop where
  pending : b.pendingJobs = jobs.countP fun j => !succeeded reports j
  nodup : b.failedJobIDs.Nodup
  failedIDs : ∀ j, j ∈ b.failedJobIDs ↔ j ∈ jobs ∧ reported reports j = true ∧ succeeded reports j = false
  failed : b.failedJobs = b.failedJobIDs.length

namespace Counted

variable {b : Batch σ} {jobs : List String} {reports : List Report} {j : String}

variable (h : Counted b jobs reports)
include h

/-- The jobs owed are the ones that have not reported. -/
theorem owed (hn : jobs.Nodup) :
    b.pendingJobs - b.failedJobs = jobs.countP fun j => !reported reports j := by
  have hperm : b.failedJobIDs.Perm (jobs.filter fun j => reported reports j && !succeeded reports j) := by
    rw [perm_ext_iff_of_nodup h.nodup (hn.filter _)]
    intro j
    rw [h.failedIDs, mem_filter]
    simp
  rw [h.pending, h.failed, hperm.length_eq, ← countP_eq_length_filter]
  have hsum : ∀ l : List String, l.countP (fun j => !succeeded reports j) =
      l.countP (fun j => !reported reports j) + l.countP (fun j => reported reports j && !succeeded reports j) := by
    intro l
    induction l with
    | nil => rfl
    | cons j l ih =>
      simp only [countP_cons, ih]
      cases hr : reported reports j with
      | true =>
        cases hs : succeeded reports j
        · simp
          omega
        · simp
      | false =>
        simp [not_succeeded_of_not_reported hr]
        omega
  have := hsum jobs
  omega

theorem success (hn : jobs.Nodup) (hj : j ∈ jobs) (hne : j ≠ "")
    (hs : succeeded reports j = false) :
    Counted (b.decrementPendingJobs j) jobs (reports ++ [⟨j, true⟩]) where
  pending := by
    have := countP_one_more (p := fun i => !succeeded reports i)
      (q := fun i => !succeeded (reports ++ [⟨j, true⟩]) i) hn hj (by simp [hs]) (by simp [succeeded_snoc])
      (fun i hi => by simp [succeeded_snoc, Ne.symm hi])
    show b.pendingJobs - 1 = _
    rw [h.pending, this]
    push_cast
    omega
  nodup := by
    show (withoutFailure b.failedJobIDs j).Nodup
    rw [withoutFailure, if_neg hne]
    exact h.nodup.filter _
  failedIDs i := by
    show i ∈ withoutFailure b.failedJobIDs j ↔ _
    rw [withoutFailure, if_neg hne, mem_filter, h.failedIDs, reported_snoc, succeeded_snoc]
    by_cases hi : i = j
    · simp [hi]
    · simp [hi, Ne.symm hi]
  failed := rfl

/-- A first failure puts the job in the failed list. -/
theorem failure (hj : j ∈ jobs) (hne : j ≠ "")
    (hr : reported reports j = false) :
    Counted (b.incrementFailedJobs j) jobs (reports ++ [⟨j, false⟩]) ∧
      (b.incrementFailedJobs j).failedJobs = b.failedJobs + 1 := by
  have hs := not_succeeded_of_not_reported hr
  have hnot : j ∉ b.failedJobIDs := by
    rw [h.failedIDs, hr]
    simp
  have hafter : b.incrementFailedJobs j = { b with
      failedJobIDs := (b.failedJobIDs ++ [j]).insertionSort (· ≤ ·)
      failedJobs := ((b.failedJobIDs ++ [j]).insertionSort (· ≤ ·)).length } := by
    simp [Batch.incrementFailedJobs, withFailure, hne, hnot]
  rw [hafter]
  refine ⟨⟨?_, ?_, fun i => ?_, rfl⟩, ?_⟩
  · rw [h.pending]
    simp [succeeded_snoc]
  · rw [(perm_insertionSort _ _).nodup_iff, nodup_append]
    exact ⟨h.nodup, nodup_singleton j, fun x hx y hy => by
      rw [mem_singleton.mp hy]
      rintro rfl
      exact hnot hx⟩
  · rw [mem_insertionSort, mem_append, mem_singleton, h.failedIDs, reported_snoc, succeeded_snoc]
    by_cases hi : i = j
    · subst hi
      simp [hj, hs]
    · simp [hi, Ne.symm hi]
  · rw [h.failed]
    simp

/-- A job that is in the failed list may fail again. -/
theorem again (hne : j ≠ "") (hj : j ∈ b.failedJobIDs) :
    b.incrementFailedJobs j = b ∧ Counted b jobs (reports ++ [⟨j, false⟩]) := by
  obtain ⟨_, hr, _⟩ := (h.failedIDs j).mp hj
  refine ⟨?_, ?_, h.nodup, fun i => ?_, h.failed⟩
  · rw [Batch.incrementFailedJobs, if_neg hne, withFailure, if_pos (.inr hj), ← h.failed]
  · rw [h.pending]
    simp [succeeded_snoc]
  · rw [h.failedIDs, reported_snoc, succeeded_snoc]
    by_cases hi : i = j
    · simp [hi, hr]
    · simp [Ne.symm hi]

end Counted

/-- The callbacks issued so far are what the reports make them. -/
structure Tracks (b : Batch σ) (jobs : List String) (reports : List Report) (issued : Moment → Nat) : Prop
    extends Counted b jobs reports where
  then_ : issued .then_ = if b.options.then_.isSome ∧ jobs.all (succeeded reports) then 1 else 0
  catch_ : issued .catch_ = if b.options.catch_.isSome ∧ reports.all (·.ok) = false then 1 else 0
  finally_ : issued .finally_ = if b.options.finally_.isSome ∧ jobs.all (reported reports) then 1 else 0
  progress : issued .progress =
    if b.options.progress.isSome then reports.countP (fun r => r.ok || b.options.allowFailures) else 0
  failure : issued .failure =
    if b.options.failure.isSome ∧ b.options.allowFailures then reports.countP (!·.ok) else 0

theorem countP_not_eq_zero {p : String → Bool} {l : List String} :
    l.countP (fun j => !p j) = 0 ↔ l.all p := by
  simp [countP_eq_zero]

/-- How often a moment's callback is among what a report does. -/
theorem countP_callback (b : Batch σ) (m m' : Moment) :
    (b.callback m).countP (Deed.pushes m') =
      if (b.options.callback m).isSome ∧ m = m' then 1 else 0 := by
  unfold Batch.callback
  cases hc : b.options.callback m with
  | none => simp
  | some => simp [Deed.pushes, countP_cons]

theorem countP_ite (p : α → Bool) (c : Prop) [Decidable c] (l : List α) :
    (if c then l else []).countP p = if c then l.countP p else 0 := by
  split <;> rfl

variable (b : Batch σ) (j : String)
include b j

@[simp]
theorem Batch.options_decrement : (b.decrementPendingJobs j).options = b.options := rfl

@[simp]
theorem Batch.options_increment : (b.incrementFailedJobs j).options = b.options := by
  unfold Batch.incrementFailedJobs
  split <;> rfl

@[simp]
theorem Batch.recordSuccessfulJob_fst : (b.recordSuccessfulJob j).1 = b.decrementPendingJobs j :=
  rfl

@[simp]
theorem Batch.recordFailedJob_fst : (b.recordFailedJob j).1 = b.incrementFailedJobs j := rfl

theorem Batch.issues_success :
    let deeds := (b.recordSuccessfulJob j).2
    let after := b.decrementPendingJobs j
    deeds.countP (Deed.pushes .then_) = (if b.options.then_.isSome ∧ after.pendingJobs = 0 then 1 else 0) ∧
    deeds.countP (Deed.pushes .catch_) = 0 ∧
    deeds.countP (Deed.pushes .finally_) =
      (if b.options.finally_.isSome ∧ after.pendingJobs - after.failedJobs = 0 then 1 else 0) ∧
    deeds.countP (Deed.pushes .progress) = (if b.options.progress.isSome then 1 else 0) ∧
    deeds.countP (Deed.pushes .failure) = 0 := by
  simp only [Batch.recordSuccessfulJob, Batch.allJobsHaveRanExactlyOnce, decide_eq_true_eq]
  simp [countP_append, countP_ite, countP_callback, Options.callback, Deed.pushes, ← ite_and, and_comm]

theorem Batch.issues_failure :
    let deeds := (b.recordFailedJob j).2
    let after := b.incrementFailedJobs j
    deeds.countP (Deed.pushes .then_) = 0 ∧
    deeds.countP (Deed.pushes .catch_) = (if b.options.catch_.isSome ∧ after.failedJobs = 1 then 1 else 0) ∧
    deeds.countP (Deed.pushes .finally_) =
      (if b.options.finally_.isSome ∧ after.pendingJobs - after.failedJobs = 0 then 1 else 0) ∧
    deeds.countP (Deed.pushes .progress) =
      (if b.options.progress.isSome ∧ b.options.allowFailures then 1 else 0) ∧
    deeds.countP (Deed.pushes .failure) =
      if b.options.failure.isSome ∧ b.options.allowFailures then 1 else 0 := by
  simp only [Batch.recordFailedJob, Batch.allJobsHaveRanExactlyOnce, decide_eq_true_eq]
  simp [countP_append, countP_ite, countP_callback, Options.callback, Deed.pushes, ← ite_and, and_comm]

omit b j

theorem mem_ite_nil {x : α} {c : Prop} [Decidable c] {l : List α} :
    x ∈ (if c then l else []) ↔ c ∧ x ∈ l := by
  split
  · next h => simp [h]
  · next h => simp [h]

/-- A report pushes callbacks of the batch, and never the one for its start. -/
theorem Batch.record_push {b : Batch σ} {j : String} {ok : Bool} {m : Moment} {x : σ}
    (h : Deed.push m x ∈ (b.record j ok).2) : b.options.callback m = some x ∧ m ≠ .before := by
  have hcall : ∀ {b' : Batch σ} {m' : Moment}, b'.options = b.options → m' ≠ .before →
      Deed.push m x ∈ b'.callback m' → b.options.callback m = some x ∧ m ≠ .before := by
    intro b' m' ho hm' hx
    simp only [Batch.callback, Option.mem_toList, Option.map_eq_some_iff, Deed.push.injEq] at hx
    obtain ⟨y, hy, rfl, rfl⟩ := hx
    exact ⟨by rw [← ho, hy], hm'⟩
  cases ok with
  | true =>
    simp only [Batch.record, Batch.recordSuccessfulJob, mem_append, mem_ite_nil, mem_cons,
      reduceCtorEq, false_or] at h
    rcases h with (h | ⟨-, h⟩) | ⟨-, h⟩ <;> exact hcall (b.options_decrement j) (by decide) h
  | false =>
    simp only [Batch.record, Batch.recordFailedJob, mem_append, mem_ite_nil, mem_cons,
      reduceCtorEq, not_mem_nil, or_false, and_false, false_or] at h
    rcases h with (⟨-, h | h⟩ | ⟨-, h⟩) | ⟨-, h⟩ <;> exact hcall (b.options_increment j) (by decide) h

section Tracks

variable {b : Batch σ} {jobs : List String} {reports : List Report} {issued : Moment → Nat} {j : String}

theorem Counted.all_succeeded (h : Counted b jobs reports) :
    b.pendingJobs = 0 ↔ jobs.all (succeeded reports) := by
  rw [h.pending, ← countP_not_eq_zero]
  exact Int.natCast_eq_zero

theorem Counted.all_reported (h : Counted b jobs reports) (hn : jobs.Nodup) :
    b.pendingJobs - b.failedJobs = 0 ↔ jobs.all (reported reports) := by
  rw [h.owed hn, ← countP_not_eq_zero]
  exact Int.natCast_eq_zero

theorem all_eq_false_of_mem {p : String → Bool} {l : List String} {x : String} (hx : x ∈ l)
    (hp : p x = false) : l.all p = false :=
  all_eq_false.mpr ⟨x, hx, by simp [hp]⟩

variable (h : Tracks b jobs reports issued)
include h

theorem Tracks.recordSuccessfulJob (hn : jobs.Nodup) (hj : j ∈ jobs) (hne : j ≠ "")
    (ht : tidyReport b.failedJobIDs jobs reports j true) :
    Tracks (b.recordSuccessfulJob j).1 jobs (reports ++ [⟨j, true⟩])
      fun m => issued m + (b.recordSuccessfulJob j).2.countP (Deed.pushes m) := by
  simp only [tidyReport, Bool.and_eq_true, Bool.not_eq_true', Bool.or_eq_true, decide_eq_true_eq,
    any_eq_true] at ht
  obtain ⟨hs, hlate⟩ := ht
  have hc := h.toCounted.success hn hj hne hs
  obtain ⟨hthen, hcatch, hfinally, hprogress, hfailure⟩ := b.issues_success j
  -- Somebody has not reported before: the job itself, unless it had failed.
  have hopen : jobs.all (reported reports) = false := by
    cases hr : reported reports j with
    | false => exact all_eq_false_of_mem hj hr
    | true =>
      obtain ⟨i, hi, hir⟩ := hlate.resolve_left fun hnot => hnot ((h.failedIDs j).mpr ⟨hj, hr, hs⟩)
      exact all_eq_false_of_mem hi hir
  refine ⟨hc, ?_, ?_, ?_, ?_, ?_⟩
  · rw [h.then_, hthen, all_eq_false_of_mem hj hs]
    simp [hc.all_succeeded]
  · rw [h.catch_, hcatch]
    simp
  · rw [h.finally_, hfinally, hopen]
    simp [hc.all_reported hn]
  · rw [h.progress, hprogress]
    simp only [Batch.recordSuccessfulJob_fst, Batch.options_decrement, countP_append]
    split <;> simp
  · rw [h.failure, hfailure]
    simp [countP_append]

theorem Tracks.progress_failed {n : Nat}
    (hn : n = if b.options.progress.isSome ∧ b.options.allowFailures then 1 else 0) :
    issued .progress + n = if b.options.progress.isSome then
      (reports ++ [(⟨j, false⟩ : Report)]).countP (fun r => r.ok || b.options.allowFailures) else 0 := by
  rw [h.progress, hn, countP_append]
  by_cases hp : b.options.progress.isSome <;> cases b.options.allowFailures <;> simp [hp]

theorem Tracks.failure_failed {n : Nat}
    (hn : n = if b.options.failure.isSome ∧ b.options.allowFailures then 1 else 0) :
    issued .failure + n = if b.options.failure.isSome ∧ b.options.allowFailures then
      (reports ++ [(⟨j, false⟩ : Report)]).countP (!·.ok) else 0 := by
  rw [h.failure, hn, countP_append]
  split <;> simp

theorem Tracks.recordFailedJob (hn : jobs.Nodup) (hj : j ∈ jobs) (hne : j ≠ "")
    (ht : tidyReport b.failedJobIDs jobs reports j false) :
    Tracks (b.recordFailedJob j).1 jobs (reports ++ [⟨j, false⟩])
      fun m => issued m + (b.recordFailedJob j).2.countP (Deed.pushes m) := by
  obtain ⟨hthen, hcatch, hfinally, hprogress, hfailure⟩ := b.issues_failure j
  have hall : (reports ++ [(⟨j, false⟩ : Report)]).all (·.ok) = false := by simp
  have hsame : succeeded (reports ++ [⟨j, false⟩]) = succeeded reports := by
    funext i
    simp [succeeded_snoc]
  unfold tidyReport at ht
  by_cases hin : j ∈ b.failedJobIDs
  · -- The job had failed: the counters stay, and pass no number a callback waits for.
    rw [if_pos hin] at ht
    simp only [Bool.and_eq_true, decide_eq_true_eq, any_eq_true, Bool.not_eq_true'] at ht
    obtain ⟨_, i, hi, hir⟩ := ht
    obtain ⟨-, hr, hs⟩ := (h.failedIDs j).mp hin
    obtain ⟨hafter, hc⟩ := h.toCounted.again hne hin
    have hopen : jobs.all (reported reports) = false := all_eq_false_of_mem hi hir
    have hopen' : jobs.all (reported (reports ++ [⟨j, false⟩])) = false := by
      refine all_eq_false_of_mem hi ?_
      rw [reported_snoc, hir, Bool.false_or, decide_eq_false_iff_not]
      rintro rfl
      rw [hr] at hir
      cases hir
    rw [b.recordFailedJob_fst, hafter]
    rw [hafter] at hcatch hfinally
    refine ⟨hc, ?_, ?_, ?_, h.progress_failed hprogress, h.failure_failed hfailure⟩
    · rw [h.then_, hthen, hsame]
      rfl
    · rw [h.catch_, hcatch, exists_failure hr hs, hall,
        if_neg (c := _ ∧ b.failedJobs = 1) fun hx => by have := h.failed; omega]
      rfl
    · rw [h.finally_, hfinally, hopen, hopen']
      simp only [h.toCounted.all_reported hn, hopen]
      simp
  · rw [if_neg hin] at ht
    simp only [Bool.and_eq_true, Bool.not_eq_true', Bool.or_eq_true, decide_eq_true_eq] at ht
    obtain ⟨hr, hgood⟩ := ht
    obtain ⟨hc, hone⟩ := h.toCounted.failure hj hne hr
    refine ⟨hc, ?_, ?_, ?_, ?_, ?_⟩
    · rw [h.then_, hthen, hsame]
      simp
    · rw [h.catch_, hcatch, hone, h.failed, hall]
      -- Either nothing had failed before, or some job stands failed.
      rcases hgood with hsome | hok
      · obtain ⟨i, hi⟩ := exists_mem_of_ne_nil _ hsome
        obtain ⟨-, hir, his⟩ := (h.failedIDs i).mp hi
        have hlen := length_pos_of_ne_nil hsome
        rw [exists_failure hir his, if_neg (c := _ ∧ (b.failedJobIDs.length : Int) + 1 = 1) fun hx => by omega]
        simp
      · have hnil : b.failedJobIDs = [] := by
          rw [eq_nil_iff_forall_not_mem]
          intro i hi
          obtain ⟨-, hir, his⟩ := (h.failedIDs i).mp hi
          rw [exists_failure hir his] at hok
          cases hok
        rw [hnil, hok]
        simp
    · rw [h.finally_, hfinally, all_eq_false_of_mem hj hr]
      simp [hc.all_reported hn]
    · rw [b.recordFailedJob_fst, b.options_increment]
      exact h.progress_failed hprogress
    · rw [b.recordFailedJob_fst, b.options_increment]
      exact h.failure_failed hfailure

/-- A tidy report keeps the counters and the callbacks what the reports make them. -/
theorem Tracks.record (hn : jobs.Nodup) (hj : j ∈ jobs) (hne : j ≠ "")
    {ok : Bool} (ht : tidyReport b.failedJobIDs jobs reports j ok) :
    Tracks (b.record j ok).1 jobs (reports ++ [⟨j, ok⟩])
      fun m => issued m + (b.record j ok).2.countP (Deed.pushes m) := by
  cases ok with
  | true => exact h.recordSuccessfulJob hn hj hne ht
  | false => exact h.recordFailedJob hn hj hne ht

theorem Tracks.perform (d : Deed σ) :
    Tracks (b.perform d) jobs reports issued := by
  cases d <;>
    exact ⟨⟨h.pending, h.nodup, h.failedIDs, h.failed⟩, h.then_, h.catch_, h.finally_, h.progress, h.failure⟩

/-- The callbacks that count are those after the start. -/
theorem Tracks.congr {issued' : Moment → Nat}
    (hi : ∀ m, m ≠ .before → issued' m = issued m) : Tracks b jobs reports issued' :=
  ⟨h.toCounted, by rw [hi _ (by decide), h.then_], by rw [hi _ (by decide), h.catch_],
    by rw [hi _ (by decide), h.finally_], by rw [hi _ (by decide), h.progress], by rw [hi _ (by decide), h.failure]⟩

omit h

/-- Jobs that report once each make tidy reports. -/
theorem Counted.tidy (h : Counted b jobs reports) (once : (reports.map (·.job)).Nodup)
    (ours : ∀ r ∈ reports, r.job ∈ jobs) (hr : reported reports j = false) (ok : Bool) :
    tidyReport b.failedJobIDs jobs reports j ok := by
  have hs := not_succeeded_of_not_reported hr
  have hnot : j ∉ b.failedJobIDs := by
    rw [h.failedIDs, hr]
    simp
  cases ok with
  | true => simp [tidyReport, hs, hnot]
  | false =>
    rw [tidyReport, if_neg hnot, hr, Bool.not_false, Bool.true_and, Bool.or_eq_true, decide_eq_true_eq]
    by_cases hall : reports.all (·.ok)
    · exact .inr hall
    · -- A job that has failed has not succeeded, and so stands in the list.
      obtain ⟨r, hmem, hok⟩ := all_eq_false.mp (Bool.eq_false_iff.mpr hall)
      refine .inl (ne_nil_of_mem ((h.failedIDs r.job).mpr ⟨ours r hmem, ?_, ?_⟩))
      · exact any_eq_true.mpr ⟨r, hmem, by simp⟩
      · rw [Bool.eq_false_iff]
        intro hs
        obtain ⟨q, hq, hq'⟩ := any_eq_true.mp hs
        obtain ⟨hjob, hqok⟩ := Bool.and_eq_true_iff.mp hq'
        have := inj_on_of_nodup_map once hq hmem (of_decide_eq_true hjob)
        rw [this] at hqok
        exact hok hqok

theorem Batch.options_record (b : Batch σ) (j : String) (ok : Bool) : (b.record j ok).1.options = b.options := by
  cases ok with
  | true => rfl
  | false => exact b.options_increment j

theorem tracks_store (options : Options σ) (hjobs : jobs ≠ []) :
    Tracks (Batch.store jobs.length options) jobs [] fun _ => 0 := by
  obtain ⟨i, hi⟩ := exists_mem_of_ne_nil _ hjobs
  refine ⟨⟨?_, nodup_nil, fun j => ?_, rfl⟩, ?_, ?_, ?_, by simp, by simp⟩
  · simp [Batch.store, succeeded]
  · simp [Batch.store, reported]
  · rw [all_eq_false_of_mem (p := succeeded []) hi rfl]
    simp
  · simp
  · rw [all_eq_false_of_mem (p := reported []) hi rfl]
    simp

end Tracks

/-! ### The run -/

/-- How often a callback was pushed or is about to be. -/
def Running.issued (s : Running σ) (m : Moment) : Nat :=
  s.pushed.count m + (s.todo.map fun deeds => deeds.countP (Deed.pushes m)).sum

/-- A batch that was stored for these jobs, none of which has reported. -/
def Running.start (jobs : List String) (options : Options σ) : Running σ :=
  { batch := .store jobs.length options, jobs }

/-- What holds in a tidy run of a batch of these jobs. -/
structure Running.Tracked (s : Running σ) (jobs : List String) : Prop where
  same : s.jobs = jobs
  tracks : Tracks s.batch jobs s.reports s.issued

theorem Running.issued_report (s : Running σ) (batch : Batch σ) (reports : List Report) (deeds : List (Deed σ)) :
    Running.issued { s with batch, reports, todo := s.todo ++ [deeds] } =
      fun m => s.issued m + deeds.countP (Deed.pushes m) := by
  funext m
  simp [Running.issued, sum_append]
  omega

/-- Doing what a report has still to do issues nothing new. -/
theorem Running.issued_go (s : Running σ) {i : Nat} {deed : Deed σ} {rest : List (Deed σ)}
    (hi : s.todo[i]? = some (deed :: rest)) (batch : Batch σ) :
    Running.issued { s with
      batch
      todo := s.todo.set i rest
      pushed := s.pushed ++ deed.moment.toList } = s.issued := by
  funext m
  have := sum_countP_set_add (p := Deed.pushes m) hi
  simp only [Running.issued]
  cases deed with
  | push =>
    simp only [Deed.pushes, Deed.moment, decide_eq_true_eq, Option.toList_some, count_append,
      count_singleton, beq_iff_eq] at this ⊢
    omega
  | markAsFinished | cancel =>
    simp only [Deed.pushes, Deed.moment, Option.toList_none, append_nil, Bool.false_eq_true, if_false] at this ⊢
    omega

theorem Running.Tracked.step {s u : Running σ} {jobs : List String} {a : Act} (h : s.Tracked jobs)
    (hn : jobs.Nodup) (hne : "" ∉ jobs) (hok : s.tidy a) (hu : s.step a = some u) : u.Tracked jobs := by
  cases a with
  | report =>
    simp only [Running.step] at hu
    split at hu
    · next hj =>
      cases hu
      rw [h.same] at hj
      refine ⟨h.same, ?_⟩
      rw [Running.issued_report]
      refine h.tracks.record hn hj (by rintro rfl; exact hne hj) ?_
      simpa only [Running.tidy, h.same] using hok
    · cases hu
  | go =>
    simp only [Running.step] at hu
    split at hu
    · next deed rest hi =>
      cases hu
      refine ⟨h.same, ?_⟩
      rw [Running.issued_go s hi]
      exact h.tracks.perform deed
    · cases hu

/-- **The callbacks of a tidy run**: `Then` is pushed at most once, after every job has succeeded;
`Catch` at most once; and `Finally` at most once, after every job has reported. -/
theorem callbacks_fire_once {jobs : List String} (hjobs : jobs ≠ []) (hn : jobs.Nodup) (hne : "" ∉ jobs)
    {options : Options σ} {s : Running σ} (h : Reach Running.step Running.tidy (.start jobs options) s) :
    s.pushed.count .then_ ≤ 1 ∧ (.then_ ∈ s.pushed → ∀ j ∈ jobs, succeeded s.reports j = true) ∧
    s.pushed.count .catch_ ≤ 1 ∧
    s.pushed.count .finally_ ≤ 1 ∧ (.finally_ ∈ s.pushed → ∀ j ∈ jobs, reported s.reports j = true) := by
  have ht : s.Tracked jobs := by
    refine h.invariant (I := fun s => s.Tracked jobs) ⟨rfl, ?_⟩ fun t a u ht hok hu => ht.step hn hne hok hu
    exact tracks_store options hjobs
  have hle : ∀ m, s.pushed.count m ≤ s.issued m := fun m => Nat.le_add_right _ _
  have hthen := ht.tracks.then_
  have hcatch := ht.tracks.catch_
  have hfinally := ht.tracks.finally_
  refine ⟨?_, fun hm => ?_, ?_, ?_, fun hm => ?_⟩
  · have := hle .then_
    split at hthen <;> omega
  · have := count_pos_iff.mpr hm
    have := hle .then_
    split at hthen
    · next hx => exact all_eq_true.mp hx.2
    · omega
  · have := hle .catch_
    split at hcatch <;> omega
  · have := hle .finally_
    split at hfinally <;> omega
  · have := count_pos_iff.mpr hm
    have := hle .finally_
    split at hfinally
    · next hx => exact all_eq_true.mp hx.2
    · omega

/-- A batch with all three callbacks. -/
def allThree : Options Unit := { then_ := some (), catch_ := some (), finally_ := some () }

/-- A job that has failed is retried while another one has not reported, and all three fire. -/
theorem callbacks_fire_once_retried : ∃ s : Running Unit, s.pushed = [.catch_, .then_, .finally_] ∧
    ∀ j ∈ ["a", "b"], succeeded s.reports j = true := by
  obtain ⟨s, hrun, hp⟩ : ∃ s : Running Unit, Reach Running.step Running.tidy (.start ["a", "b"] allThree) s ∧
      s.pushed = [.catch_, .then_, .finally_] :=
    Run.exists_reach [.report "a" false, .go 0, .go 0, .report "a" true, .report "b" true,
      .go 2, .go 2, .go 2] (by decide +kernel)
  exact ⟨s, hp, (callbacks_fire_once (by decide) (by decide) (by decide) hrun).2.1 (by rw [hp]; decide)⟩

/-- **The callbacks fire early and again.**  A job that succeeds twice makes `Then` fire while the
other has not reported; one that fails twice makes `Catch` fire twice; and one that fails and is
retried makes `Finally` fire twice. -/
theorem duplicate_reports_fire :
    (∃ s : Running Unit, Reach Running.step (fun _ _ => true) (.start ["a", "b"] allThree) s ∧
      .then_ ∈ s.pushed ∧ reported s.reports "b" = false) ∧
    (∃ s : Running Unit, Reach Running.step (fun _ _ => true) (.start ["a", "b"] allThree) s ∧
      s.pushed.count .catch_ = 2) ∧
    ∃ s : Running Unit, Reach Running.step (fun _ _ => true) (.start ["a"] allThree) s ∧
      s.pushed.count .finally_ = 2 := by
  refine ⟨?_, ?_, ?_⟩
  · exact Run.exists_reach [.report "a" true, .report "a" true, .go 1, .go 1] (by decide +kernel)
  · exact Run.exists_reach [.report "a" false, .report "a" false, .go 0, .go 0, .go 1, .go 1] (by decide +kernel)
  · exact Run.exists_reach [.report "a" false, .go 0, .go 0, .go 0, .report "a" true, .go 1, .go 1, .go 1]
      (by decide +kernel)

end Hesape.Bus
