import Hesape.Scheduling.Mutex
import Mathlib.Data.List.Nodup

/-!
# The loop of the task scheduler

`TaskScheduler.Start` reads the clock, waits for the next minute to begin, reads the clock again and
calls `Tick` with what it reads; when the tick has returned, it starts over.  A minute that begins
while a tick is running, or while the timer is late, is never waited for.

Time passes between the steps by any amounts.  The loop fires every minute once if it is never
behind by a minute (`prompt`): then the minutes of its ticks are the ones that follow the minute it
was started in, one after another (`Consecutive`).
-/

namespace Hesape.Scheduling.Loop

open Hesape.Run (Reach exists_reach)
open List

/-- Where the loop is: about to read the clock, waiting for a moment, in a tick, or left. -/
inductive Point
  | top
  | waiting (next : Nat)
  | ticking
  | done
  deriving DecidableEq

structure State where
  start : Nat
  now : Nat
  point : Point := .top
  /-- When `Stop` was called. -/
  stopped : Option Nat := none
  /-- The times `Tick` was called with. -/
  ticks : List Nat := []

def State.initial (start : Nat) : State := { start, now := start }

inductive Action
  | pass (d : Nat)
  | read
  | wake
  | finish
  | stop
  | exit

def step (s : State) : Action → Option State
  | .pass d => some { s with now := s.now + d }
  | .read => if s.point = .top then some { s with point := .waiting ((s.now / minute + 1) * minute) } else none
  | .wake =>
    match s.point with
    | .waiting next => if next ≤ s.now then some { s with point := .ticking, ticks := s.ticks ++ [s.now] } else none
    | _ => none
  | .finish => if s.point = .ticking then some { s with point := .top } else none
  | .stop => if s.stopped.isNone then some { s with stopped := some s.now } else none
  | .exit =>
    match s.point, s.stopped with
    | .waiting _, some _ => some { s with point := .done }
    | _, _ => none

/-- The minute of the last tick, or the one the loop was started in. -/
def State.last (s : State) : Nat := s.ticks.getLastD s.start / minute

/-- The loop reads the clock in the minute of its last tick, unless it was stopped before the next
one; its timer fires in the minute it was set for, which begins before the loop is stopped; and it
does not leave with a minute unfired. -/
def prompt (s : State) : Action → Bool
  | .read => s.now / minute = s.last || s.stopped.any (· ≤ (s.last + 1) * minute)
  | .wake =>
    match s.point with
    | .waiting next => s.now / minute = next / minute && s.stopped.all (next ≤ ·)
    | _ => true
  | .exit =>
    match s.point with
    | .waiting next => s.stopped.all (· ≤ next)
    | _ => true
  | _ => true

def State.minutes (s : State) : List Nat := s.ticks.map (· / minute)

/-- **Every minute fires once.**  The ticks are in increasing minutes that begin after `Start` and not
after `Stop`, and every minute between has its tick.  A task that is due in the minutes `cron` says
is so handed to the Runner once in each of them. -/
structure State.Fires (s : State) (stop : Nat) : Prop where
  increasing : s.minutes.Pairwise (· < ·)
  between : ∀ m ∈ s.minutes, s.start < m * minute ∧ m * minute ≤ stop
  once : ∀ m, s.start < m * minute → m * minute < stop → s.minutes.count m = 1
  handed : ∀ cron m, s.start < m * minute → m * minute < stop → cron m = true → (s.minutes.filter cron).count m = 1

/-- The minutes of the ticks follow the one the loop was started in.  A loop that waits for a later
minute than the next was stopped before that one. -/
structure Consecutive (s : State) : Prop where
  minutes : s.minutes = range' (s.start / minute + 1) s.ticks.length
  now : s.last * minute ≤ s.now
  stopped : ∀ t ∈ s.stopped, s.last * minute ≤ t
  waiting : ∀ next, s.point = .waiting next →
    next = (s.last + 1) * minute ∨ (s.last + 1) * minute ≤ next ∧ ∃ t ∈ s.stopped, t ≤ (s.last + 1) * minute
  done : s.point = .done → ∃ t ∈ s.stopped, t ≤ (s.last + 1) * minute

theorem Consecutive.last_eq {s : State} (h : Consecutive s) : s.last = s.start / minute + s.ticks.length := by
  have hm := h.minutes
  rcases eq_nil_or_concat s.ticks with hnil | ⟨l, t, hl⟩
  · simp [State.last, hnil]
  · rw [State.minutes, hl, concat_eq_append, map_append, length_append, length_singleton, range'_concat] at hm
    have ht := (append_inj' hm rfl).2
    simp only [map_cons, map_nil, cons.injEq, and_true] at ht
    simp only [State.last, hl, concat_eq_append, getLastD_concat, length_append, length_singleton]
    omega

theorem minute_pos : 0 < minute := by decide

theorem Consecutive.step {s u : State} {a : Action} (h : Consecutive s) (hok : prompt s a)
    (hs : step s a = some u) : Consecutive u := by
  cases a with
  | pass =>
    cases hs
    exact ⟨h.minutes, Nat.le_add_right_of_le h.now, h.stopped, h.waiting, h.done⟩
  | read =>
    dsimp only [Loop.step] at hs
    split at hs <;> cases hs
    refine ⟨h.minutes, h.now, h.stopped, fun next hnext => ?_, nofun⟩
    cases hnext
    have hlast : s.last ≤ s.now / minute := (Nat.le_div_iff_mul_le minute_pos).mpr h.now
    simp only [prompt, Bool.or_eq_true, decide_eq_true_eq, Option.any_eq_true] at hok
    rcases hok with hok | ⟨t, ht, hle⟩
    · exact .inl (by rw [hok]; rfl)
    · exact .inr ⟨Nat.mul_le_mul_right _ (Nat.succ_le_succ hlast), t, ht, hle⟩
  | finish =>
    dsimp only [Loop.step] at hs
    split at hs <;> cases hs
    exact ⟨h.minutes, h.now, h.stopped, nofun, nofun⟩
  | stop =>
    dsimp only [Loop.step] at hs
    split at hs <;> cases hs
    next hnone =>
    have hnone : s.stopped = none := Option.isNone_iff_eq_none.mp hnone
    refine ⟨h.minutes, h.now, fun t ht => ?_, fun next hnext => ?_, fun hdone => ?_⟩
    · cases ht
      exact h.now
    · rcases h.waiting next hnext with hnext | ⟨-, t, ht, -⟩
      · exact .inl hnext
      · cases hnone ▸ ht
    · obtain ⟨t, ht, -⟩ := h.done hdone
      cases hnone ▸ ht
  | wake =>
    dsimp only [Loop.step] at hs
    split at hs
    · next next hpoint =>
      split at hs <;> cases hs
      next hle =>
      simp only [prompt, hpoint, Bool.and_eq_true, decide_eq_true_eq, Option.all_eq_true] at hok
      -- Whatever the loop waits for when it wakes, it is the minute after the last.
      have hnext : next = (s.last + 1) * minute := by
        rcases h.waiting next hpoint with hnext | ⟨hle, t, ht, hstop⟩
        · exact hnext
        · have := hok.2 t ht
          omega
      have hnow : s.now / minute = s.last + 1 := by rw [hok.1, hnext, Nat.mul_div_cancel _ minute_pos]
      have hlast : (⟨s.start, s.now, .ticking, s.stopped, s.ticks ++ [s.now]⟩ : State).last = s.last + 1 := by
        rw [State.last, getLastD_concat, hnow]
      refine ⟨?_, ?_, fun t ht => ?_, nofun, nofun⟩
      · rw [State.minutes, map_append, length_append, length_singleton, range'_concat]
        show s.minutes ++ [s.now / minute] = _
        rw [h.minutes, hnow, h.last_eq]
        simp [Nat.add_right_comm]
      · rw [hlast, ← hnow]
        exact Nat.div_mul_le_self _ _
      · rw [hlast, ← hnext]
        exact hok.2 t ht
    · cases hs
  | exit =>
    dsimp only [Loop.step] at hs
    split at hs <;> cases hs
    next next t hpoint hstop =>
    simp only [prompt, hpoint, hstop, Option.all_some, decide_eq_true_eq] at hok
    refine ⟨h.minutes, h.now, h.stopped, nofun, fun _ => ?_⟩
    rcases h.waiting next hpoint with rfl | ⟨-, hstopped⟩
    · exact ⟨t, hstop, hok⟩
    · exact hstopped

/-- **A prompt loop fires every minute once.** -/
theorem fires_of_reach (start stop : Nat) (t : State) (h : Reach step prompt (State.initial start) t)
    (hdone : t.point = .done) (hstop : t.stopped = some stop) : t.Fires stop := by
  have hfirst : Consecutive (State.initial start) :=
    ⟨rfl, Nat.div_mul_le_self _ _, nofun, nofun, nofun⟩
  have hkept := h.invariant hfirst fun _ _ _ h hok hs => h.step hok hs
  have hlast := hkept.last_eq
  obtain ⟨t', ht', hend⟩ := hkept.done hdone
  obtain rfl : stop = t' := Option.some.inj (hstop.symm.trans ht')
  have hbefore : ∀ m, t.start < m * minute ↔ t.start / minute + 1 ≤ m :=
    fun m => (Nat.div_lt_iff_lt_mul minute_pos).symm
  have hnodup : t.minutes.Nodup := hkept.minutes ▸ nodup_range'
  have hmem : ∀ m, t.start < m * minute → m * minute < stop → m ∈ t.minutes := by
    intro m hm hlt
    have : m < t.last + 1 := Nat.lt_of_mul_lt_mul_right (Nat.lt_of_lt_of_le hlt hend)
    rw [hkept.minutes, mem_range'_1]
    exact ⟨(hbefore m).mp hm, by omega⟩
  refine ⟨?_, fun m hm => ?_, fun m hm hlt => ?_, fun cron m hm hlt hcron => ?_⟩
  · rw [hkept.minutes]
    exact pairwise_lt_range'
  · rw [hkept.minutes, mem_range'_1] at hm
    exact ⟨(hbefore m).mpr hm.1, Nat.le_trans (Nat.mul_le_mul_right _ (by omega)) (hkept.stopped stop hstop)⟩
  · exact count_eq_one_of_mem hnodup (hmem m hm hlt)
  · exact count_eq_one_of_mem (hnodup.filter _) (mem_filter.mpr ⟨hmem m hm hlt, hcron⟩)

/-- Two ticks that return within their minutes. -/
theorem fires_two : ∃ t : State, t.minutes = [1, 2] ∧ t.Fires (3 * minute) := by
  have hrun : ∃ t, Reach step prompt (State.initial 0) t ∧
      t.point = .done ∧ t.stopped = some (3 * minute) ∧ t.minutes = [1, 2] :=
    exists_reach [.read, .pass minute, .wake, .pass 9, .finish, .read, .pass (minute - 9), .wake, .finish, .read,
      .pass minute, .stop, .exit] (by decide +kernel)
  obtain ⟨t, hreach, hdone, hstop, hm⟩ := hrun
  exact ⟨t, hm, fires_of_reach 0 _ t hreach hdone hstop⟩

/-- A tick of two minutes: the minute that begins while it runs is not fired. -/
theorem long_tick : ∃ t stop, Reach step (fun _ _ => true) (State.initial 0) t ∧
    t.point = .done ∧ t.stopped = some stop ∧ ¬ t.Fires stop := by
  have hrun : ∃ t, Reach step (fun _ _ => true) (State.initial 0) t ∧
      t.point = .done ∧ t.stopped = some (3 * minute) ∧ t.start = 0 ∧ t.minutes.count 2 = 0 :=
    exists_reach [.read, .pass minute, .wake, .pass (2 * minute), .stop, .finish, .read, .exit] (by decide +kernel)
  obtain ⟨t, hreach, hdone, hstop, hstart, _⟩ := hrun
  refine ⟨t, _, hreach, hdone, hstop, fun h => ?_⟩
  have := h.once 2 (by rw [hstart]; decide) (by decide)
  omega

end Hesape.Scheduling.Loop
