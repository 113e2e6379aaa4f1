import Mathlib.Data.List.Basic
import Mathlib.Data.Option.Basic

/-!
# The worker

A delivered job is run by its handler inside the worker's middleware, and then settled: deleted,
released for another attempt, or parked.  Handlers and middleware are programs (`Prog`) that may
look at the job, settle or mark it themselves, hand on to what they surround and go on with its
outcome, and end with an outcome of their own; a panic is an outcome too.  `ReportToBatch` is a
layer by itself, since it is the only one that reports to a batch.

`Delivery` is a delivery under way: the job with its flags, the calls made to the driver, the
reports made to the batch and the records written to the failed job provider.  All of these calls
succeed.  The clock is read when the delivery begins, when `ReportToBatch` asks for the final
attempt, and when the worker settles the job.
-/

namespace Hesape.Queue.Worker

/-- An error, by what can be asked of it. -/
structure Err where
  text : String
  manuallyFailed : Bool := false
  handlerPanicked : Bool := false
  deadlineExceeded : Bool := false
  retryAfter : Option Nat := none

inductive Outcome
  | ok
  | error (e : Err)
  | panic (value : Err)

/-- What the retry rules read of a job.  A zero is a setting that was not made. -/
structure Attributes where
  tries : Int := 0
  maxExceptions : Int := 0
  retryUntil : Option Nat := none
  failOnTimeout : Bool := false
  backoff : Nat := 0

structure Job where
  name : String
  attempts : Int := 1
  exceptions : Int := 0
  lastError : String := ""
  attributes : Attributes := {}
  released : Bool := false
  deleted : Bool := false
  failed : Bool := false

def Job.isDeletedOrReleased (j : Job) : Bool := j.deleted || j.released

/-- A call to the driver that settles the delivery. -/
inductive Settlement
  | release (delay : Nat)
  | delete
  | fail (cause : String)
  deriving DecidableEq

def Settlement.isRelease : Settlement → Bool
  | .release _ => true
  | _ => false

def Settlement.isDelete : Settlement → Bool
  | .delete => true
  | _ => false

def Settlement.isFail : Settlement → Bool
  | .fail _ => true
  | _ => false

/-- What is written to the failed job provider. -/
structure Record where
  name : String
  exception : String
  failedAt : Nat

structure Delivery where
  job : Job
  calls : List Settlement := []
  /-- `MarkAsFailed` was called. -/
  marked : Bool := false
  /-- The outcomes reported to the batch. -/
  reports : List Bool := []
  recorded : List Record := []

/-! ### What a handler may do with its job -/

inductive Act
  | release (delay : Nat)
  | delete
  | fail (cause : Option Err)
  | markAsFailed

def Delivery.release (d : Delivery) (delay : Nat) : Delivery :=
  { d with job := { d.job with released := true }, calls := d.calls ++ [.release delay] }

def Delivery.delete (d : Delivery) : Delivery :=
  { d with job := { d.job with deleted := true }, calls := d.calls ++ [.delete] }

def Delivery.fail (d : Delivery) (cause : Option Err) : Delivery :=
  let lastError := (cause.map (·.text)).getD d.job.lastError
  { d with
    job := { d.job with lastError, failed := true, deleted := true }
    calls := d.calls ++ [.fail lastError] }

def Delivery.markAsFailed (d : Delivery) : Delivery :=
  { d with job := { d.job with failed := true }, marked := true }

def Delivery.act (d : Delivery) : Act → Delivery
  | .release delay => d.release delay
  | .delete => d.delete
  | .fail cause => d.fail cause
  | .markAsFailed => d.markAsFailed

/-- A handler, or a middleware around `next`. -/
inductive Prog
  | done (o : Outcome)
  | act (a : Act) (k : Prog)
  | look (k : Job → Prog)
  | next (k : Outcome → Prog)

/-- Runs a program around `inner`. -/
def Prog.exec (inner : Delivery → Delivery × Outcome) : Prog → Delivery → Delivery × Outcome
  | .done o, d => (d, o)
  | .act a k, d => k.exec inner (d.act a)
  | .look k, d => (k d.job).exec inner d
  | .next k, d => (k (inner d).2).exec inner (inner d).1

/-! ### The middleware of the package

Those that settle a job after it has run, each the program it is under the answers its limiter gives.
The others end, release the job or hand on before it runs. -/

/-- What a rate limiter answers. -/
inductive Attempt
  | allowed
  | refused (retryAfter : Nat)
  | error (e : Err)

/-- Three seconds. -/
def retryPadding : Nat := 3000

/-- Hands on, with the outcome as it is. -/
def handOn : Prog := .next .done

/-- The failures a `ThrottlesExceptions` deletes, parks and counts, and the waits of its releases. -/
structure Throttle where
  deleteWhen : Err → Bool := fun _ => false
  failWhen : Err → Bool := fun _ => false
  «when» : Err → Bool := fun _ => true
  retryAfter : Nat := 60000
  backoff : Nat := 0

def throttlesExceptions (t : Throttle) (answer : Attempt) (hit : Option Err) : Prog :=
  match answer with
  | .error e => .done (.error e)
  | .refused retryAfter =>
    .act (.release (if t.backoff = 0 then retryAfter + retryPadding else t.backoff)) (.done .ok)
  | .allowed =>
    .next fun
      | .error e =>
        -- The job is settled whether or not what it surrounds has done so.
        if t.deleteWhen e then .act .delete (.done .ok)
        else if t.failWhen e then .act (.fail (some e)) (.done .ok)
        else if t.when e then
          match hit with
          | some e' => .done (.error e')
          | none => .act (.release t.retryAfter) (.done .ok)
        else .done (.error e)
      | o => .done o

/-! ### The retry rules -/

/-- The times the clock is read at. -/
structure Clock where
  start : Nat
  report : Nat
  settle : Nat

/-- One of the layers around a handler. -/
inductive Layer
  | middleware (p : Prog)
  | reportToBatch

structure Options where
  maxTries : Int := 0
  backoff : Int → Nat := fun _ => 0
  /-- A failed job provider is set. -/
  failed : Bool := true

def Options.maxTriesFor (w : Options) (j : Job) : Int :=
  if j.attributes.tries ≠ 0 then j.attributes.tries else w.maxTries

def Options.shouldFail (w : Options) (j : Job) (attempts : Int) (cause : Err) (now : Nat) : Bool :=
  if cause.manuallyFailed then true
  else if cause.handlerPanicked then true
  else match j.attributes.retryUntil with
    | some deadline => deadline ≤ now
    | none =>
      if j.attributes.failOnTimeout && cause.deadlineExceeded then true
      else if 0 < j.attributes.maxExceptions ∧ j.attributes.maxExceptions ≤ j.exceptions then true
      else if 0 < w.maxTriesFor j then w.maxTriesFor j ≤ attempts
      else false

/-- The job with this failure counted. -/
def Job.counted (j : Job) : Job := { j with exceptions := j.exceptions + 1 }

/-- The failure is the one the worker will park the job for. -/
def Options.lastFailure (w : Options) (j : Job) (cause : Err) (now : Nat) : Bool :=
  w.shouldFail j.counted (max j.attempts 1) cause now

def Options.isFinalAttempt (w : Options) (j : Job) (cause : Err) (now : Nat) : Bool :=
  !j.isDeletedOrReleased && w.lastFailure j cause now

/-- The deliveries were used up before this one. -/
def Options.exceeded (w : Options) (j : Job) (now : Nat) : Bool :=
  match j.attributes.retryUntil with
  | some deadline => deadline ≤ now
  | none => 0 < w.maxTriesFor j && w.maxTriesFor j < j.attempts

/-- One hour. -/
def ceiling : Nat := 3600000

def Options.calculateBackoff (w : Options) (j : Job) (attempt : Int) (cause : Err) : Nat :=
  let wait := if j.attributes.backoff ≠ 0 then j.attributes.backoff else w.backoff attempt
  min (max wait (cause.retryAfter.getD 0)) ceiling

/-! ### A delivery -/

/-- What `ReportToBatch` tells the batch of a run.  A panic passes it by, and a failure is reported
only when it is the last one. -/
def Options.tell (w : Options) (now : Nat) (d : Delivery) : Outcome → Delivery × Outcome
  | .panic value => (d, .panic value)
  | .ok => (if d.job.released then d else { d with reports := d.reports ++ [true] }, .ok)
  | .error e =>
    (if w.isFinalAttempt d.job e now then { d with reports := d.reports ++ [false] } else d, .error e)

def reportToBatch (w : Options) (now : Nat) (inner : Delivery → Delivery × Outcome) (d : Delivery) :
    Delivery × Outcome :=
  w.tell now (inner d).1 (inner d).2

/-- The handler in its middleware, outermost first. -/
def runStack (w : Options) (now : Nat) : List Layer → Prog → Delivery → Delivery × Outcome
  | [], handler => handler.exec fun d => (d, .ok)
  | .middleware p :: rest, handler => p.exec (runStack w now rest handler)
  | .reportToBatch :: rest, handler => reportToBatch w now (runStack w now rest handler)

/-- The error a run leaves: a panic is recovered into one. -/
def Outcome.recovered : Outcome → Option Err
  | .ok => none
  | .error e => some e
  | .panic value => some { value with handlerPanicked := true }

def Options.park (w : Options) (d : Delivery) (cause : Err) (now : Nat) : Delivery :=
  let d := d.fail (some cause)
  if w.failed then { d with recorded := d.recorded ++ [⟨d.job.name, cause.text, now⟩] } else d

def Options.handleJobException (w : Options) (d : Delivery) (cause : Err) (now : Nat) : Delivery :=
  let d := { d with job := d.job.counted }
  if d.job.isDeletedOrReleased then d
  else
    let attempts := max d.job.attempts 1
    let d := { d with job := { d.job with lastError := cause.text } }
    if w.shouldFail d.job attempts cause now then w.park d cause now
    else d.release (w.calculateBackoff d.job attempts cause)

def noHandler (j : Job) : Err := { text := "no handler registered for " ++ j.name }

def Options.maxAttemptsExceeded (w : Options) (j : Job) : Err :=
  { text := "queue: " ++ j.name ++ " has been attempted too many times: " ++ toString j.attempts ++ " of " ++
      toString (w.maxTriesFor j) ++ " allowed" }

/-- Settles what a run has left. -/
def Options.settle (w : Options) (now : Nat) (d : Delivery) (o : Outcome) : Delivery × Option Err :=
  match o.recovered with
  | some e => (w.handleJobException d e now, some e)
  | none => (if d.job.isDeletedOrReleased then d else d.delete, none)

/-- Runs one job and settles it.  `handler` is the one registered under the job's name. -/
def Options.process (w : Options) (clock : Clock) (middleware : List Layer) (handler : Option Prog) (d : Delivery) :
    Delivery × Option Err :=
  match handler with
  | none => (w.park d (noHandler d.job) clock.start, some (noHandler d.job))
  | some h =>
    if w.exceeded d.job clock.start then
      (w.park d (w.maxAttemptsExceeded d.job) clock.start, some (w.maxAttemptsExceeded d.job))
    else if d.job.deleted then (d, none)
    else
      let r := runStack w clock.report middleware h d
      w.settle clock.settle r.1 r.2

/-- A job as it comes off the queue. -/
def popped (j : Job) : Delivery := { job := { j with released := false, deleted := false, failed := false } }

/-- **What becomes of a job**: it is parked before it is run, or its handler runs and what it leaves is
settled. -/
theorem Options.process_cases (w : Options) (clock : Clock) (stack : List Layer) (handler : Option Prog) (j : Job) :
    ((¬∃ h, handler = some h ∧ w.exceeded j clock.start = false) ∧ ∃ cause,
      w.process clock stack handler (popped j) = (w.park (popped j) cause clock.start, some cause)) ∨
    ∃ h, handler = some h ∧ w.exceeded j clock.start = false ∧
      w.process clock stack handler (popped j) = w.settle clock.settle
        (runStack w clock.report stack h (popped j)).1 (runStack w clock.report stack h (popped j)).2 := by
  cases handler with
  | none => exact .inl ⟨nofun, _, rfl⟩
  | some h =>
    cases hx : w.exceeded j clock.start with
    | true => exact .inl ⟨nofun, _, if_pos hx⟩
    | false => exact .inr ⟨h, rfl, rfl, if_neg (Bool.eq_false_iff.mp hx)⟩

/-! ### What the flags say -/

/-- The flags of the job are those of the calls that were made. -/
structure Delivery.Flagged (d : Delivery) : Prop where
  released : d.job.released = d.calls.any Settlement.isRelease
  deleted : d.job.deleted = d.calls.any fun c => c.isDelete || c.isFail

theorem flagged_popped (j : Job) : (popped j).Flagged := ⟨rfl, rfl⟩

variable {d : Delivery}

theorem Delivery.Flagged.act (h : d.Flagged) (a : Act) : (d.act a).Flagged := by
  obtain ⟨hr, hd⟩ := h
  cases a with
  | markAsFailed => exact ⟨hr, hd⟩
  | release =>
    exact ⟨by simp [Delivery.act, Delivery.release, Settlement.isRelease],
      by simp [Delivery.act, Delivery.release, Settlement.isDelete, Settlement.isFail, hd]⟩
  | delete =>
    exact ⟨by simp [Delivery.act, Delivery.delete, Settlement.isRelease, hr],
      by simp [Delivery.act, Delivery.delete, Settlement.isDelete]⟩
  | fail =>
    exact ⟨by simp [Delivery.act, Delivery.fail, Settlement.isRelease, hr],
      by simp [Delivery.act, Delivery.fail, Settlement.isFail]⟩

variable {I : Delivery → Prop}

/-- What holds of a delivery whatever is done with it holds after a program has run. -/
theorem Prog.exec_invariant {inner : Delivery → Delivery × Outcome}
    (hact : ∀ d a, I d → I (d.act a)) (hinner : ∀ d, I d → I (inner d).1) (p : Prog) :
    ∀ d, I d → I (p.exec inner d).1 := by
  induction p with
  | done =>
    intro d h
    exact h
  | act a k ih =>
    intro d h
    exact ih _ (hact d a h)
  | look k ih =>
    intro d h
    exact ih d.job d h
  | next k ih =>
    intro d h
    exact ih _ _ (hinner d h)

/-- What holds whatever is done with a delivery and reported of it holds after the whole stack. -/
theorem runStack_invariant (w : Options) (now : Nat) (handler : Prog)
    (hact : ∀ d a, I d → I (d.act a)) (hreport : ∀ d ok, I d → I { d with reports := d.reports ++ [ok] }) :
    ∀ (stack : List Layer) (d : Delivery), I d → I (runStack w now stack handler d).1 := by
  intro stack
  induction stack with
  | nil =>
    intro d h
    exact handler.exec_invariant hact (fun _ h => h) d h
  | cons layer rest ih =>
    intro d h
    cases layer with
    | middleware p => exact p.exec_invariant hact ih d h
    | reportToBatch =>
      have hd := ih d h
      simp only [runStack, reportToBatch]
      cases (runStack w now rest handler d).2 with
      | panic => exact hd
      | ok =>
        simp only [Options.tell]
        split
        · exact hd
        · exact hreport _ true hd
      | error =>
        simp only [Options.tell]
        split
        · exact hreport _ false hd
        · exact hd

theorem flagged_runStack (w : Options) (now : Nat) (stack : List Layer) (handler : Prog) (j : Job) :
    (runStack w now stack handler (popped j)).1.Flagged :=
  runStack_invariant w now handler (fun _ a h => h.act a) (fun _ _ h => ⟨h.released, h.deleted⟩) stack _
    (flagged_popped j)

/-- A job is settled when the driver was called. -/
theorem Delivery.Flagged.settled (h : d.Flagged) : d.job.isDeletedOrReleased ↔ d.calls ≠ [] := by
  rw [Job.isDeletedOrReleased, h.deleted, h.released]
  cases d.calls with
  | nil => simp
  | cons c =>
    cases c <;> simp [Settlement.isRelease, Settlement.isDelete, Settlement.isFail]

theorem recorded_runStack (w : Options) (now : Nat) (stack : List Layer) (handler : Prog) (j : Job) :
    (runStack w now stack handler (popped j)).1.recorded = [] := by
  refine runStack_invariant (I := fun d => d.recorded = []) w now handler (fun d a h => ?_) (fun _ _ h => h) stack _ rfl
  cases a <;> exact h

/-- The rules only become stricter as time goes by. -/
theorem Options.shouldFail_mono {w : Options} {j : Job} {attempts : Int} {cause : Err} {now later : Nat}
    (hle : now ≤ later) (h : w.shouldFail j attempts cause now) : w.shouldFail j attempts cause later := by
  unfold Options.shouldFail at h ⊢
  split
  · rfl
  · next hm =>
    rw [if_neg hm] at h
    split
    · rfl
    · next hp =>
      rw [if_neg hp] at h
      cases hu : j.attributes.retryUntil with
      | none => simpa only [hu] using h
      | some =>
        simp only [hu, decide_eq_true_eq] at h ⊢
        omega

/-- What the worker does with a run that has left an error. -/
theorem Options.handleJobException_spec (w : Options) (h : d.Flagged) (cause : Err) (now : Nat) :
    (d.calls ≠ [] → (w.handleJobException d cause now).calls = d.calls ∧
      (w.handleJobException d cause now).recorded = d.recorded) ∧
    (d.calls = [] → w.lastFailure d.job cause now →
      (w.handleJobException d cause now).calls = [.fail cause.text] ∧
      ((w.handleJobException d cause now).recorded = d.recorded ↔ w.failed = false)) ∧
    (d.calls = [] → w.lastFailure d.job cause now = false →
      (∃ delay, (w.handleJobException d cause now).calls = [.release delay]) ∧
      (w.handleJobException d cause now).recorded = d.recorded) ∧
    (w.handleJobException d cause now).marked = d.marked ∧
    (w.handleJobException d cause now).reports = d.reports := by
  have hset : d.job.counted.isDeletedOrReleased = d.job.isDeletedOrReleased := rfl
  have hfail : ∀ text, w.shouldFail { d.job.counted with lastError := text } (max d.job.counted.attempts 1) cause now =
      w.lastFailure d.job cause now := fun _ => rfl
  by_cases hc : d.calls = []
  · have hunset : d.job.isDeletedOrReleased = false := by
      rw [Bool.eq_false_iff]
      exact fun hs => h.settled.mp hs hc
    unfold Options.handleJobException
    simp only [hset, hunset, Bool.false_eq_true, if_false, hfail, hc, ne_eq, not_true_eq_false, false_implies,
      true_implies, true_and]
    cases hf : w.lastFailure d.job cause now with
    | true =>
      cases hw : w.failed <;> simp [Options.park, hw, Delivery.fail]
    | false => simp [Delivery.release]
  · have hset' : d.job.isDeletedOrReleased := h.settled.mpr hc
    unfold Options.handleJobException
    simp [hset, hset', hc]

end Hesape.Queue.Worker
