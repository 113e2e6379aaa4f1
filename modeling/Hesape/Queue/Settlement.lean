import Hesape.Queue.Worker

/-!
# One settlement for each delivery

The worker settles what a run has left unsettled, so a delivery is settled at least once; and it
leaves alone what a handler or a middleware has settled, so it is settled once if these do so at
most once among them.  The middleware does not all look before it acts: `ThrottlesExceptions` and
`FailOnException` settle the job of a handler that has done so.  The record of a parked job is
written where the worker parks it, and not by `Job.Fail`, which handlers and middleware call; and
the mark of `MarkAsFailed` is read by nobody.

`settles_once_iff` says exactly when all is well.
-/

namespace Hesape.Queue.Worker

/-- What a delivery should come to: it is settled once, it is not released when it was marked
failed, and it is recorded just when it is parked. -/
structure Delivery.SettledWell (d : Delivery) (w : Options) : Prop where
  once : d.calls.length = 1
  kept : d.marked = true → d.calls.any Settlement.isRelease = false
  recorded : w.failed = true → (d.recorded ≠ [] ↔ d.calls.any Settlement.isFail = true)

/-- What the handler and the middleware may leave: they have settled the job at most once, and not
by `Fail` when there is a provider to tell; and a job they have marked failed they have not
released, nor left to a worker that will try it again. -/
structure Leaves (w : Options) (clock : Clock) (d : Delivery) (o : Outcome) : Prop where
  once : d.calls.length ≤ 1
  silent : w.failed = true → d.calls.any Settlement.isFail = false
  kept : d.marked = true → d.calls.any Settlement.isRelease = false
  final : d.marked = true → d.calls = [] → ∀ e, o.recovered = some e → w.lastFailure d.job e clock.settle = true

/-- A job that is parked before it is run is settled well. -/
theorem Options.settledWell_park (w : Options) (j : Job) (cause : Err) (now : Nat) :
    (w.park (popped j) cause now).SettledWell w := by
  cases hw : w.failed with
  | true =>
    refine ⟨?_, ?_, fun _ => ?_⟩ <;>
      simp [Options.park, hw, Delivery.fail, popped, Settlement.isFail]
  | false =>
    refine ⟨?_, ?_, fun h => ?_⟩
    · simp [Options.park, hw, Delivery.fail, popped]
    · simp [Options.park, hw, Delivery.fail, popped]
    · rw [hw] at h
      cases h

/-- A run without an error is settled well when it leaves what it may. -/
theorem settledWell_ok_iff {w : Options} {clock : Clock} {d : Delivery} (h : d.Flagged) (hr : d.recorded = []) :
    (w.settle clock.settle d .ok).1.SettledWell w ↔ Leaves w clock d .ok := by
  show (if d.job.isDeletedOrReleased then d else d.delete).SettledWell w ↔ _
  by_cases hc : d.calls = []
  · have hunset : ¬ d.job.isDeletedOrReleased := fun hs => h.settled.mp hs hc
    rw [if_neg hunset]
    constructor
    · intro _
      exact ⟨by simp [hc], by simp [hc], by simp [hc], nofun⟩
    · intro _
      exact ⟨by simp [Delivery.delete, hc], by simp [Delivery.delete, hc, Settlement.isRelease],
        by simp [Delivery.delete, hc, hr, Settlement.isFail]⟩
  · rw [if_pos (h.settled.mpr hc)]
    constructor
    · intro hs
      refine ⟨Nat.le_of_eq hs.once, fun hw => ?_, hs.kept, fun _ hn => absurd hn hc⟩
      rw [Bool.eq_false_iff]
      exact fun hf => (hs.recorded hw).mpr hf hr
    · intro hl
      have hlen : d.calls.length = 1 := by
        have := hl.once
        have := List.length_pos_of_ne_nil hc
        omega
      refine ⟨hlen, hl.kept, fun hw => ?_⟩
      rw [hl.silent hw]
      simp [hr]

/-- A run that leaves an error is settled well when it leaves what it may. -/
theorem settledWell_error_iff {w : Options} {clock : Clock} {d : Delivery} {o : Outcome} {e : Err} (h : d.Flagged)
    (hr : d.recorded = []) (ho : o.recovered = some e) :
    (w.handleJobException d e clock.settle).SettledWell w ↔ Leaves w clock d o := by
  obtain ⟨hsettled, hparked, hreleased, hmarked, -⟩ := w.handleJobException_spec h e clock.settle
  by_cases hc : d.calls = []
  · have hleaves : Leaves w clock d o ↔ (d.marked → w.lastFailure d.job e clock.settle) := by
      constructor
      · intro hl hm
        exact hl.final hm hc e ho
      · intro hl
        refine ⟨by simp [hc], by simp [hc], by simp [hc], fun hm _ e' he' => ?_⟩
        rw [ho] at he'
        cases he'
        exact hl hm
    rw [hleaves]
    cases hf : w.lastFailure d.job e clock.settle with
    | true =>
      obtain ⟨hcalls, hrec⟩ := hparked hc hf
      refine ⟨fun _ _ => rfl, fun _ => ⟨by rw [hcalls]; rfl, fun _ => by rw [hcalls]; rfl, fun hw => ?_⟩⟩
      rw [hcalls]
      refine ⟨fun _ => rfl, fun _ hn => ?_⟩
      rw [hr] at hrec
      rw [hrec.mp hn] at hw
      cases hw
    | false =>
      obtain ⟨⟨_, hcalls⟩, hrec⟩ := hreleased hc hf
      constructor
      · intro hs hm
        have := hs.kept (hmarked.trans hm)
        rw [hcalls] at this
        cases this
      · intro hl
        refine ⟨by rw [hcalls]; rfl, fun hm => ?_, fun _ => ?_⟩
        · cases hl (hmarked ▸ hm)
        · rw [hcalls, hrec, hr]
          simp [Settlement.isFail]
  · obtain ⟨hcalls, hrec⟩ := hsettled hc
    constructor
    · intro hs
      refine ⟨by rw [← hcalls]; exact Nat.le_of_eq hs.once, fun hw => ?_, fun hm => ?_, fun _ hn => absurd hn hc⟩
      · rw [Bool.eq_false_iff, ← hcalls]
        exact fun hf => (hs.recorded hw).mpr hf (hrec.trans hr)
      · rw [← hcalls]
        exact hs.kept (hmarked.trans hm)
    · intro hl
      have hlen : d.calls.length = 1 := by
        have := hl.once
        have := List.length_pos_of_ne_nil hc
        omega
      refine ⟨by rw [hcalls, hlen], fun hm => ?_, fun hw => ?_⟩
      · rw [hcalls]
        exact hl.kept (hmarked ▸ hm)
      · rw [hcalls, hrec, hr, hl.silent hw]
        simp

/-- **When a delivery is settled well**: the job has no handler or has used up its deliveries, or
its handler and middleware leave what they may. -/
theorem settles_once_iff (w : Options) (clock : Clock) (stack : List Layer) (handler : Option Prog) (j : Job) :
    (w.process clock stack handler (popped j)).1.SettledWell w ↔
      ∀ h, handler = some h → w.exceeded j clock.start = false →
        Leaves w clock (runStack w clock.report stack h (popped j)).1 (runStack w clock.report stack h (popped j)).2 := by
  rcases w.process_cases clock stack handler j with ⟨hno, _, hp⟩ | ⟨h, rfl, hx, hp⟩
  · rw [hp]
    exact iff_of_true (w.settledWell_park j _ _) fun h hh hx => absurd ⟨h, hh, hx⟩ hno
  · have hflags := flagged_runStack w clock.report stack h j
    have hrec := recorded_runStack w clock.report stack h j
    simp only [hp, hx, Option.some.injEq, forall_eq', true_implies]
    generalize runStack w clock.report stack h (popped j) = r at hflags hrec
    obtain ⟨d, o⟩ := r
    cases o with
    | ok => exact settledWell_ok_iff hflags hrec
    | error | panic => exact settledWell_error_iff hflags hrec rfl

/-- A handler that does one thing with its job and ends. -/
def handlerOf (a : Act) (o : Outcome) : Prog := .act a (.done o)

def someClock : Clock := { start := 0, report := 0, settle := 0 }

/-- A middleware that counts failures, and sees no reason to refuse. -/
def counting : Layer := .middleware (throttlesExceptions {} .allowed none)

/-- **Deliveries settled twice, parked without a record, and tried again.**  A handler that has
released its job and returns an error has it released again by `ThrottlesExceptions`; one that calls
`Fail` parks it without a record; and one that marks it failed and returns an error has it
released. -/
theorem settled_twice_or_unrecorded :
    (Options.process {} someClock [counting] (some (handlerOf (.release 5) (.error { text := "no" })))
      (popped { name := "j" })).1.calls = [.release 5, .release 60000] ∧
    ((Options.process {} someClock [] (some (handlerOf (.fail none) .ok)) (popped { name := "j" })).1.calls = [.fail ""] ∧
      (Options.process {} someClock [] (some (handlerOf (.fail none) .ok)) (popped { name := "j" })).1.recorded = []) ∧
    (Options.process {} someClock [] (some (handlerOf .markAsFailed (.error { text := "no" })))
      (popped { name := "j" })).1.calls = [.release 0] := by
  decide +kernel

end Hesape.Queue.Worker
