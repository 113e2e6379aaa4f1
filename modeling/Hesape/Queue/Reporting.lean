import Hesape.Queue.Worker

/-!
# What a batch hears of its jobs

`ReportToBatch` reports inside the run, and the worker settles the job after it.  The two agree
when what the middleware sees is what the worker sees, and when it is the run that decides: a job
that is parked for want of a handler, or because its deliveries are used up, is not run; a panic
passes the middleware by; a `Fail` inside the run is no final attempt, and with no error it is even
a success; and a deadline may pass between the question and the settlement.

`reported_as_settled_iff` says exactly when they agree: by what the whole run has told (`Heard`), which
is what the runs inside each `ReportToBatch` came to as often as the layers around it handed the
delivery on (`said`); and, where they pass it on, by what the run inside does (`Tells`).
-/

namespace Hesape.Queue.Worker

open List

/-- What the batch should have heard: one failure of a job that was parked, one success of a job
that was deleted without an error, and nothing of a job that was released. -/
structure ReportedWell (r : Delivery × Option Err) : Prop where
  parked : r.1.calls.any Settlement.isFail = true → r.1.reports = [false]
  deleted : r.1.calls.any Settlement.isDelete = true → r.2 = none → r.1.reports = [true]
  released : r.1.calls.any Settlement.isRelease = true → r.1.reports = []

/-- What the run inside `ReportToBatch` may come to: nothing in it has called `Fail`; a panic has
left the job settled; a run without an error has not both released and deleted it; and an error
that leaves the job to the worker is as final when the middleware asks as when the worker does. -/
structure Tells (w : Options) (clock : Clock) (d : Delivery) (o : Outcome) : Prop where
  unparked : d.calls.any Settlement.isFail = false
  panics : ∀ v, o = .panic v → d.calls ≠ []
  either : o = .ok → d.calls.any Settlement.isRelease = true → d.calls.any Settlement.isDelete = false
  timely : ∀ e, o = .error e → d.calls = [] → w.lastFailure d.job e clock.settle = true →
    w.lastFailure d.job e clock.report = true

/-- A job that is parked before it is run is not reported. -/
theorem Options.not_reportedWell_park (w : Options) (j : Job) (cause : Err) (now : Nat) (r : Option Err) :
    ¬ReportedWell (w.park (popped j) cause now, r) := by
  intro h
  have hp := h.parked (by cases hw : w.failed <;> simp [Options.park, hw, Delivery.fail, Settlement.isFail])
  cases hw : w.failed <;> simp [Options.park, hw, Delivery.fail, popped] at hp

/-- What the batch has heard when the run is over, against what the run has done and what the worker
will do: of a job the run has parked one failure, of one it has released nothing, and one success of
one that is deleted without an error; of an error that is left to the worker one failure if it is
the last one, and nothing otherwise. -/
structure Heard (w : Options) (clock : Clock) (d : Delivery) (o : Outcome) : Prop where
  parked : d.calls.any Settlement.isFail = true → d.reports = [false]
  released : d.calls.any Settlement.isRelease = true → d.reports = []
  succeeded : o = .ok → (d.calls = [] ∨ d.calls.any Settlement.isDelete = true) → d.reports = [true]
  failed : ∀ e, o.recovered = some e → d.calls = [] →
    d.reports = if w.lastFailure d.job e clock.settle then [false] else []

/-! ### What the layers say -/

/-- The deliveries a program hands on. -/
def Prog.visits (inner : Delivery → Delivery × Outcome) : Prog → Delivery → List Delivery
  | .done _, _ => []
  | .act a k, d => k.visits inner (d.act a)
  | .look k, d => (k d.job).visits inner d
  | .next k, d => d :: (k (inner d).2).visits inner (inner d).1

/-- What `ReportToBatch` says of a run: a success unless it has released the job, and a failure that is
final. -/
def Options.told (w : Options) (now : Nat) (d : Delivery) : Outcome → List Bool
  | .panic _ => []
  | .ok => if d.job.released then [] else [true]
  | .error e => if w.isFinalAttempt d.job e now then [false] else []

/-- What a stack says of a delivery. -/
def said (w : Options) (now : Nat) (h : Prog) : List Layer → Delivery → List Bool
  | [], _ => []
  | .middleware p :: rest, d => (p.visits (runStack w now rest h) d).flatMap (said w now h rest)
  | .reportToBatch :: rest, d =>
    said w now h rest d ++ w.told now (runStack w now rest h d).1 (runStack w now rest h d).2

theorem Prog.reports_exec {inner : Delivery → Delivery × Outcome} {f : Delivery → List Bool}
    (h : ∀ d, (inner d).1.reports = d.reports ++ f d) (p : Prog) :
    ∀ d, (p.exec inner d).1.reports = d.reports ++ (p.visits inner d).flatMap f := by
  induction p with
  | done =>
    intro d
    exact (append_nil _).symm
  | act a k ih =>
    intro d
    refine (ih (d.act a)).trans ?_
    cases a <;> rfl
  | look k ih =>
    intro d
    exact ih d.job d
  | next k ih =>
    intro d
    rw [exec, ih, h, visits, flatMap_cons, append_assoc]

theorem reports_eq_said (w : Options) (now : Nat) (h : Prog) : ∀ (stack : List Layer) (d : Delivery),
    (runStack w now stack h d).1.reports = d.reports ++ said w now h stack d := by
  intro stack
  induction stack with
  | nil =>
    intro d
    refine (h.reports_exec (f := fun _ => []) (fun d => (append_nil _).symm) d).trans ?_
    simp [said]
  | cons layer rest ih =>
    intro d
    cases layer with
    | middleware p => exact p.reports_exec ih d
    | reportToBatch =>
      rw [said, ← append_assoc, ← ih, runStack, reportToBatch]
      cases (runStack w now rest h d).2 <;> simp only [Options.tell, Options.told] <;> (try split) <;> simp

theorem said_eq_nil {w : Options} {now : Nat} {h : Prog} : ∀ {stack : List Layer},
    (∀ l ∈ stack, l ≠ .reportToBatch) → ∀ d, said w now h stack d = [] := by
  intro stack
  induction stack with
  | nil => exact fun _ _ => rfl
  | cons layer _ ih =>
    intro hno d
    cases layer with
    | middleware => exact flatMap_eq_nil_iff.mpr fun d' _ => ih (fun l hl => hno l (mem_cons_of_mem _ hl)) d'
    | reportToBatch => exact absurd rfl (hno _ mem_cons_self)

section Told

variable {w : Options} {clock : Clock} {d : Delivery}

variable (h : d.Flagged)
include h

theorem isDeletedOrReleased_eq_false (hc : d.calls = []) : d.job.isDeletedOrReleased = false := by
  rw [Bool.eq_false_iff]
  exact fun hs => h.settled.mp hs hc

/-- An error that is left to the worker. -/
theorem reportedWell_error_iff {o : Outcome} {e : Err} (ho : o.recovered = some e) :
    ReportedWell (w.handleJobException d e clock.settle, some e) ↔ Heard w clock d o := by
  obtain ⟨hsettled, hparked, hreleased, -, hreports⟩ := w.handleJobException_spec h e clock.settle
  have hok : o ≠ .ok := by
    intro hok
    rw [hok] at ho
    cases ho
  by_cases hc : d.calls = []
  · have hheard : Heard w clock d o ↔ d.reports = if w.lastFailure d.job e clock.settle then [false] else [] := by
      refine ⟨fun hs => hs.failed e ho hc, fun hs => ⟨?_, ?_, fun h _ => absurd h hok, ?_⟩⟩
      · simp [hc]
      · simp [hc]
      · intro _ he' _
        rw [ho] at he'
        cases he'
        exact hs
    rw [hheard]
    cases hl : w.lastFailure d.job e clock.settle with
    | true =>
      obtain ⟨hcalls, -⟩ := hparked hc hl
      constructor
      · intro hs
        rw [← hreports]
        exact hs.parked (by rw [hcalls]; rfl)
      · intro hs
        refine ⟨fun _ => hreports.trans hs, nofun, fun hx => ?_⟩
        rw [hcalls] at hx
        cases hx
    | false =>
      obtain ⟨⟨_, hcalls⟩, -⟩ := hreleased hc hl
      constructor
      · intro hs
        rw [← hreports]
        exact hs.released (by rw [hcalls]; rfl)
      · intro hs
        refine ⟨fun hx => ?_, nofun, fun _ => hreports.trans hs⟩
        rw [hcalls] at hx
        cases hx
  · obtain ⟨hcalls, -⟩ := hsettled hc
    constructor
    · intro hs
      refine ⟨fun hx => ?_, fun hx => ?_, fun h _ => absurd h hok, fun _ _ hn => absurd hn hc⟩
      · rw [← hreports]
        exact hs.parked (by rw [hcalls]; exact hx)
      · rw [← hreports]
        exact hs.released (by rw [hcalls]; exact hx)
    · intro hs
      refine ⟨fun hx => ?_, nofun, fun hx => ?_⟩
      · rw [hreports]
        exact hs.parked (by rw [← hcalls]; exact hx)
      · rw [hreports]
        exact hs.released (by rw [← hcalls]; exact hx)

/-- A run without an error: what it has not settled is deleted. -/
theorem reportedWell_ok_iff :
    ReportedWell (w.settle clock.settle d .ok) ↔ Heard w clock d .ok := by
  show ReportedWell (if d.job.isDeletedOrReleased then d else d.delete, none) ↔ _
  by_cases hc : d.calls = []
  · simp only [isDeletedOrReleased_eq_false h hc, Bool.false_eq_true, if_false]
    have hcalls : d.delete.calls = [.delete] := by simp [Delivery.delete, hc]
    constructor
    · intro hs
      refine ⟨?_, ?_, fun _ _ => hs.deleted (by rw [hcalls]; rfl) rfl, fun _ h => by cases h⟩
      · simp [hc]
      · simp [hc]
    · intro hs
      refine ⟨fun hx => ?_, fun _ _ => hs.succeeded rfl (.inl hc), fun hx => ?_⟩
      · rw [hcalls] at hx
        cases hx
      · rw [hcalls] at hx
        cases hx
  · simp only [h.settled.mpr hc, if_true]
    constructor
    · intro hs
      exact ⟨hs.parked, hs.released, fun _ hd => hs.deleted (hd.resolve_left hc) rfl, fun _ h => by cases h⟩
    · intro hs
      exact ⟨hs.parked, fun hd _ => hs.succeeded rfl (.inr hd), hs.released⟩

/-- The worker leaves the batch informed when the run does. -/
theorem reportedWell_settle_iff (o : Outcome) :
    ReportedWell (w.settle clock.settle d o) ↔ Heard w clock d o := by
  cases o with
  | ok => exact reportedWell_ok_iff h
  | error | panic => exact reportedWell_error_iff h rfl

omit h

/-! ### What `ReportToBatch` tells -/

theorem any_isFail_eq_false (hr : d.reports = []) (hp : d.calls.any Settlement.isFail → d.reports = [false]) :
    d.calls.any Settlement.isFail = false := by
  rw [Bool.eq_false_iff]
  intro hf
  have := hp hf
  rw [hr] at this
  cases this

/-- A panic is told by nobody. -/
theorem heard_tell_panic_iff (hr : d.reports = []) (v : Err) :
    Heard w clock d (.panic v) ↔ Tells w clock d (.panic v) := by
  have hlast : w.lastFailure d.job { v with handlerPanicked := true } clock.settle := by
    simp [Options.lastFailure, Options.shouldFail]
  constructor
  · intro hs
    refine ⟨any_isFail_eq_false hr hs.parked, fun _ _ hc => ?_, nofun, nofun⟩
    have := hs.failed _ rfl hc
    rw [hlast, hr] at this
    cases this
  · intro ht
    refine ⟨fun hf => ?_, fun _ => hr, nofun, fun _ _ hc => absurd hc (ht.panics v rfl)⟩
    rw [ht.unparked] at hf
    cases hf

/-- An error is told when it is the last one and the job is not settled. -/
theorem heard_tell_error_iff (hclock : clock.report ≤ clock.settle) (h : d.Flagged) (hr : d.reports = []) (e : Err) :
    Heard w clock (if w.isFinalAttempt d.job e clock.report then { d with reports := d.reports ++ [false] } else d)
      (.error e) ↔ Tells w clock d (.error e) := by
  by_cases hc : d.calls = []
  · have htells : Tells w clock d (.error e) ↔
        (w.lastFailure d.job e clock.settle → w.lastFailure d.job e clock.report) := by
      refine ⟨fun ht hl => ht.timely e rfl hc hl, fun ht => ?_⟩
      refine ⟨by simp [hc], nofun, nofun, fun e' he' _ hl => ?_⟩
      cases he'
      exact ht hl
    rw [htells]
    simp only [Options.isFinalAttempt, isDeletedOrReleased_eq_false h hc, Bool.not_false, Bool.true_and]
    cases hf : w.lastFailure d.job e clock.report with
    | true =>
      have hl : w.lastFailure d.job e clock.settle := Options.shouldFail_mono hclock hf
      simp only [if_true, implies_true, iff_true]
      refine ⟨by simp [hc], by simp [hc], nofun, fun e' he' _ => ?_⟩
      cases he'
      rw [hl, hr]
      rfl
    | false =>
      simp only [Bool.false_eq_true, if_false, imp_false, Bool.not_eq_true]
      constructor
      · intro hs
        have := hs.failed e rfl hc
        rw [hr] at this
        rw [Bool.eq_false_iff]
        intro hl
        rw [hl] at this
        cases this
      · intro hl
        refine ⟨by simp [hc], by simp [hc], nofun, fun e' he' _ => ?_⟩
        cases he'
        rw [hl, hr]
        rfl
  · simp only [Options.isFinalAttempt, h.settled.mpr hc, Bool.not_true, Bool.false_and, Bool.false_eq_true, if_false]
    constructor
    · intro hs
      exact ⟨any_isFail_eq_false hr hs.parked, fun _ _ => hc, nofun, fun _ _ hn => absurd hn hc⟩
    · intro ht
      refine ⟨fun hf => ?_, fun _ => hr, nofun, fun _ _ hn => absurd hn hc⟩
      rw [ht.unparked] at hf
      cases hf

/-- A run without an error is told as a success unless it has released the job. -/
theorem heard_tell_ok_iff (h : d.Flagged) (hr : d.reports = []) :
    Heard w clock (if d.job.released then d else { d with reports := d.reports ++ [true] }) .ok ↔
      Tells w clock d .ok := by
  have htells : Tells w clock d .ok ↔ d.calls.any Settlement.isFail = false ∧
      (d.calls.any Settlement.isRelease → d.calls.any Settlement.isDelete = false) :=
    ⟨fun ht => ⟨ht.unparked, ht.either rfl⟩,
      fun ht => ⟨ht.1, nofun, fun _ => ht.2, nofun⟩⟩
  rw [htells, ← h.released]
  cases hrel : d.job.released with
  | true =>
    have hany : d.calls.any Settlement.isRelease := by rw [← h.released, hrel]
    simp only [if_true, true_implies]
    constructor
    · intro hs
      refine ⟨any_isFail_eq_false hr hs.parked, ?_⟩
      rw [Bool.eq_false_iff]
      intro hd
      have := hs.succeeded rfl (.inr hd)
      rw [hr] at this
      cases this
    · rintro ⟨hf, hd⟩
      refine ⟨fun hx => ?_, fun _ => hr, fun _ hx => ?_, nofun⟩
      · rw [hf] at hx
        cases hx
      · rcases hx with hx | hx
        · rw [hx] at hany
          cases hany
        · rw [hd] at hx
          cases hx
  | false =>
    simp only [Bool.false_eq_true, if_false, false_implies, and_true]
    constructor
    · intro hs
      rw [Bool.eq_false_iff]
      intro hf
      have := hs.parked hf
      simp [hr] at this
    · intro hf
      refine ⟨fun hx => ?_, fun hx => ?_, fun _ _ => by simp [hr], nofun⟩
      · rw [hf] at hx
        cases hx
      · rw [← h.released, hrel] at hx
        cases hx

theorem heard_tell_iff (hclock : clock.report ≤ clock.settle) (h : d.Flagged) (hr : d.reports = []) (o : Outcome) :
    Heard w clock (w.tell clock.report d o).1 (w.tell clock.report d o).2 ↔ Tells w clock d o := by
  cases o with
  | ok => exact heard_tell_ok_iff h hr
  | error e => exact heard_tell_error_iff hclock h hr e
  | panic v => exact heard_tell_panic_iff hr v

end Told

/-- **When the batch hears what became of a job**: the job has a handler and deliveries left, and
the run has told what it has done and what the worker will do.  Where the middleware around the
innermost `ReportToBatch` passes the delivery on, that is when the run inside it comes to what it
may; where it acts on the delivery, what is told is what the stack says. -/
theorem reported_as_settled_iff (w : Options) (clock : Clock) (hclock : clock.report ≤ clock.settle)
    (stack : List Layer) (handler : Option Prog) (j : Job) :
    (ReportedWell (w.process clock stack handler (popped j)) ↔
      ∃ h, handler = some h ∧ w.exceeded j clock.start = false ∧
        Heard w clock (runStack w clock.report stack h (popped j)).1 (runStack w clock.report stack h (popped j)).2) ∧
    (∀ h outer inner, stack = outer ++ .reportToBatch :: inner → (∀ l ∈ inner, l ≠ .reportToBatch) →
      runStack w clock.report stack h (popped j) = runStack w clock.report (.reportToBatch :: inner) h (popped j) →
      (Heard w clock (runStack w clock.report stack h (popped j)).1 (runStack w clock.report stack h (popped j)).2 ↔
        Tells w clock (runStack w clock.report inner h (popped j)).1 (runStack w clock.report inner h (popped j)).2)) ∧
    ∀ h, (runStack w clock.report stack h (popped j)).1.reports = said w clock.report h stack (popped j) := by
  refine ⟨?_, ?_, fun h => reports_eq_said w clock.report h stack (popped j)⟩
  · rcases w.process_cases clock stack handler j with ⟨hno, _, hp⟩ | ⟨h, rfl, hx, hp⟩
    · rw [hp]
      exact iff_of_false (w.not_reportedWell_park j _ _ _) fun ⟨h, hh, hx, _⟩ => hno ⟨h, hh, hx⟩
    · simp only [hp, hx, Option.some.injEq, exists_eq_left', true_and]
      exact reportedWell_settle_iff (flagged_runStack w clock.report stack h j) _
  · intro h outer inner _ hinner hpass
    rw [hpass]
    exact heard_tell_iff hclock (flagged_runStack w clock.report inner h j)
      ((reports_eq_said ..).trans (said_eq_nil hinner _)) _

/-- A handler that fails. -/
def failing : Prog := .done (.error { text := "no" })

/-- The last attempt of a job, in two layers: the failure is told and the job is parked. -/
theorem reported_as_settled_failing :
    ReportedWell (Options.process { maxTries := 1 } { start := 0, report := 1, settle := 2 }
      [.middleware handOn, .reportToBatch] (some failing) (popped { name := "j" })) := by
  obtain ⟨hreported, hheard, -⟩ := reported_as_settled_iff { maxTries := 1 } { start := 0, report := 1, settle := 2 }
    (by decide) [.middleware handOn, .reportToBatch] (some failing) { name := "j" }
  refine hreported.mpr ⟨failing, rfl, rfl, (hheard failing [.middleware handOn] [] rfl (by simp) rfl).mpr ?_⟩
  refine ⟨rfl, nofun, nofun, fun e he _ _ => ?_⟩
  cases he
  decide +kernel

def atOnce : Clock := { start := 0, report := 0, settle := 0 }

/-- The calls made to the driver, and the reports made to the batch. -/
def verdict (r : Delivery × Option Err) : List Settlement × List Bool := (r.1.calls, r.1.reports)

/-- **Jobs the batch waits for, or counts wrongly.**  A handler that panics has its job parked and
nothing reported, as has a job without a handler; a job that a `ThrottlesExceptions` inside parks is
reported as a success; and one that a `ThrottlesExceptions` outside releases is reported as a
failure. -/
theorem parked_unreported :
    verdict (Options.process {} atOnce [.reportToBatch] (some (.done (.panic { text := "no" })))
      (popped { name := "j" })) = ([.fail "no"], []) ∧
    verdict (Options.process {} atOnce [.reportToBatch] none (popped { name := "j" })) =
      ([.fail "no handler registered for j"], []) ∧
    verdict (Options.process {} atOnce
      [.reportToBatch, .middleware (throttlesExceptions { failWhen := fun _ => true } .allowed none)]
      (some (.done (.error { text := "no" }))) (popped { name := "j" })) = ([.fail "no"], [true]) ∧
    verdict (Options.process { maxTries := 1 } atOnce
      [.middleware (throttlesExceptions {} .allowed none), .reportToBatch]
      (some (.done (.error { text := "no" }))) (popped { name := "j" })) = ([.release 60000], [false]) := by
  decide +kernel

end Hesape.Queue.Worker
