import Hesape.Queue.Database

/-!
# One worker at a time

The lease keeps a job with one worker: a claim asks for it in the statement that takes it, and the
time it compares with was read before.  So while a delivery is within its lease nobody else claims
the job, as long as the lease stays on the row.  The settling statements and `Retry` take it off
whoever it belongs to.  `inTime` is the condition that they do not: a delivery is settled once, within
its lease or before the job is claimed again, and a parked job is retried when nobody holds it.

Under it a live delivery has its lease on the row (`Held.leased`) and is the job's latest
(`Held.newest`), so there is one at most (`deliveries_exclude`).
-/

namespace Hesape.Queue.Database

open Hesape.Run (Reach at_set at_append forall_set forall_concat)
open List
open Bool

/-- The delivery is unsettled and within its lease. -/
def State.live (s : State) (d : Delivery) : Bool := !d.settled && s.now ≤ d.until

/-- The job has not been claimed since the delivery. -/
def State.latest (s : State) (i : Nat) (d : Delivery) : Bool :=
  (s.deliveries.drop (i + 1)).all fun e => e.id ≠ d.id

/-- A delivery is settled by one statement, within its lease or before the job is claimed again; a
parked job is retried when nobody holds it. -/
def inTime (s : State) : Action → Bool
  | .settle i _ _ => s.deliveries[i]?.all fun d => !d.settled && (s.now ≤ d.until || s.latest i d)
  | .retry id _ => s.rows.all fun r => r.id ≠ id || r.failedAt.isNone || r.free s.now
  | _ => true

/-- What holds in a run whose steps are in time. -/
structure Held (s : State) : Prop where
  keyed : s.rows.Keyed
  pops : ∀ p ∈ s.pops, p.now ≤ s.now
  leased : ∀ d ∈ s.deliveries, s.live d = true →
    (∃ r ∈ s.rows, r.id = d.id) ∧ ∀ r ∈ s.rows, r.id = d.id → r.reservedUntil = some d.until
  newest : ∀ (i j : Nat) (d e : Delivery), i < j → s.deliveries[i]? = some d → s.deliveries[j]? = some e → d.id = e.id →
    s.live d = false

variable {s t : State} {d : Delivery} {id : String} {i : Nat}

theorem live_iff : s.live d ↔ d.settled = false ∧ s.now ≤ d.until := by
  simp [State.live]

theorem latest_iff :
    s.latest i d ↔ ∀ (j : Nat) (e : Delivery), i < j → s.deliveries[j]? = some e → e.id ≠ d.id := by
  rw [State.latest, all_eq_true]
  constructor
  · intro h j e _ he
    have hmem : e ∈ s.deliveries.drop (i + 1) := by
      rw [mem_iff_getElem?]
      refine ⟨j - (i + 1), ?_⟩
      rw [getElem?_drop, show i + 1 + (j - (i + 1)) = j by omega]
      exact he
    simpa using h e hmem
  · intro h e he
    obtain ⟨k, hk⟩ := mem_iff_getElem?.mp he
    rw [getElem?_drop] at hk
    simpa using h (i + 1 + k) e (by omega) hk

/-- A delivery that may be settled now. -/
structure Settling (s : State) (i : Nat) (d : Delivery) : Prop where
  found : s.deliveries[i]? = some d
  unsettled : d.settled = false
  timely : (decide (s.now ≤ d.until) || s.latest i d) = true

theorem Settling.of (hd : s.deliveries[i]? = some d) {outcome : Outcome} {read : Nat}
    (hok : inTime s (.settle i outcome read)) : Settling s i d := by
  rw [inTime, hd, Option.all_some, and_eq_true, not_eq_true'] at hok
  exact ⟨hd, hok.1, hok.2⟩

theorem held_initial (now : Nat) {rows : Table} (h : rows.Keyed) : Held { now, rows } where
  keyed := h
  pops := by simp
  leased := by simp
  newest := by simp

variable (h : Held s)
include h

theorem Held.tick (d : Nat) : Held { s with now := s.now + d } := by
  have hlive : ∀ e, State.live { s with now := s.now + d } e → s.live e := by
    intro e he
    obtain ⟨hs, hu⟩ := live_iff.mp he
    have hu : s.now + d ≤ e.until := hu
    exact live_iff.mpr ⟨hs, by omega⟩
  refine ⟨h.keyed, fun p hp => ?_, fun e he hl => h.leased e he (hlive e hl), fun i j x y hij hx hy hid => ?_⟩
  · have : p.now ≤ s.now := h.pops p hp
    show p.now ≤ s.now + d
    omega
  · have := h.newest i j x y hij hx hy hid
    rw [eq_false_iff] at this ⊢
    exact fun hl => this (hlive x hl)

/-- What moves only the calls of `Pop`. -/
theorem Held.calls {pops : List Pop} (hp : ∀ p ∈ pops, p.now ≤ s.now) :
    Held { s with pops } :=
  ⟨h.keyed, hp, h.leased, h.newest⟩

theorem Held.push {r : Row} (hr : s.rows.any (·.id = r.id) = false)
    (log : List Entry) : Held { s with rows := s.rows ++ [r], log } := by
  refine ⟨h.keyed.push hr, h.pops, fun d hd hl => ?_, h.newest⟩
  obtain ⟨⟨q, hq, hid⟩, hall⟩ := h.leased d hd hl
  refine ⟨⟨q, mem_append_left _ hq, hid⟩, fun p hp hpid => ?_⟩
  rcases mem_append.mp hp with hp | hp
  · exact hall p hp hpid
  · -- A new row has an id no live delivery has.
    rw [mem_singleton.mp hp] at hpid
    have := any_eq_false.mp hr q hq
    simp [hid, hpid] at this

/-- A step that touches the rows of one job only, none of whose deliveries is live after it. -/
theorem Held.replace (hkeyed : t.rows.Keyed)
    (hrows : s.rows.Beside t.rows id)
    (hpops : ∀ p ∈ t.pops, p.now ≤ t.now)
    (hold : ∀ d ∈ t.deliveries, t.live d → d.id ≠ id → d ∈ s.deliveries ∧ s.live d)
    (hnone : ∀ d ∈ t.deliveries, t.live d → d.id = id →
      (∃ r ∈ t.rows, r.id = d.id) ∧ ∀ r ∈ t.rows, r.id = d.id → r.reservedUntil = some d.until)
    (hnewest : ∀ (i j : Nat) (d e : Delivery), i < j → t.deliveries[i]? = some d →
      t.deliveries[j]? = some e → d.id = e.id → t.live d = false) : Held t := by
  refine ⟨hkeyed, hpops, fun d hd hl => ?_, hnewest⟩
  by_cases hid : d.id = id
  · exact hnone d hd hl hid
  · obtain ⟨hmem, hlive⟩ := hold d hd hl hid
    obtain ⟨⟨r, hr, hrid⟩, hall⟩ := h.leased d hmem hlive
    refine ⟨⟨r, (hrows r (by rwa [hrid])).mpr hr, hrid⟩, fun q hq hqid => hall q ?_ hqid⟩
    exact (hrows q (by rwa [hqid])).mp hq

/-- A claim that goes through finds no live delivery of the job. -/
theorem Held.none_live {p : Pop} (hp : p.now ≤ s.now)
    (hfree : s.rows.affects id (·.free p.now)) (hd : d ∈ s.deliveries)
    (hid : d.id = id) : s.live d = false := by
  rw [eq_false_iff]
  intro hl
  obtain ⟨r, hr, hrid, hrfree⟩ := affects_iff.mp hfree
  have hlease := (h.leased d hd hl).2 r hr (hrid.trans hid.symm)
  obtain ⟨-, _⟩ := live_iff.mp hl
  rw [Row.free, hlease, Option.all_some, decide_eq_true_eq] at hrfree
  omega

theorem Held.claim {call : Nat} {p : Pop} (hp : s.pops[call]? = some p)
    (ht : claim s call p = some t) : Held t := by
  have hnow : p.now ≤ s.now := h.pops p (mem_of_getElem? hp)
  unfold Database.claim at ht
  split at ht
  · next c rest hc =>
    have hpops : ∀ q ∈ s.pops.set call { p with candidates := some rest }, q.now ≤ s.now :=
      forall_set h.pops hnow
    simp only at ht
    split at ht
    · next hfree =>
      cases ht
      have hdead : ∀ d ∈ s.deliveries, d.id = c.id → s.live d = false := fun d hd hid =>
        h.none_live hnow hfree hd hid
      refine h.replace (h.keyed.update c.id _ fun _ => rfl) (beside_claim s.rows c.id p.now (p.now + p.lease)) hpops ?_ ?_ ?_
      · intro d hd hl hid
        rcases (mem_append.mp hd).imp_right mem_singleton.mp with hd | rfl
        · exact ⟨hd, hl⟩
        · exact absurd rfl hid
      · intro d hd hl hid
        rcases mem_append.mp hd with hd | hd
        · have := hdead d hd hid
          rw [show s.live d = true from hl] at this
          cases this
        · obtain ⟨r, hr, hrid, hrfree⟩ := affects_iff.mp hfree
          rw [mem_singleton.mp hd]
          have hkeyed : Table.Keyed (s.rows.claim c.id p.now (p.now + p.lease)) :=
            h.keyed.update c.id _ fun _ => rfl
          have htaken : (if r.id = c.id ∧ r.free p.now = true then
              { r with reservedUntil := some (p.now + p.lease), attempts := r.attempts + 1 } else r)
              ∈ s.rows.claim c.id p.now (p.now + p.lease) := mem_map_of_mem hr
          rw [if_pos ⟨hrid, hrfree⟩] at htaken
          refine ⟨⟨_, htaken, hrid⟩, fun q hq hqid => ?_⟩
          rw [hkeyed.eq hq htaken (hqid.trans hrid.symm)]
          rfl
      · intro i j d e hij hi hj hid
        rcases at_append hj with hj | ⟨rfl, rfl⟩
        · have hi : s.deliveries[i]? = some d := by
            rcases at_append hi with hi | ⟨rfl, -⟩
            · exact hi
            · have := (List.getElem?_eq_some_iff.mp hj).1
              omega
          exact h.newest i j d e hij hi hj hid
        · have hi : s.deliveries[i]? = some d := by
            rcases at_append hi with hi | ⟨rfl, -⟩
            · exact hi
            · omega
          exact hdead d (mem_of_getElem? hi) hid
    · cases ht
      exact h.calls hpops
  · cases ht

variable (hset : Settling s i d)
include hset

/-- A delivery that may be settled is the latest of its job. -/
theorem Held.latest : s.latest i d := by
  rcases or_eq_true_iff.mp hset.timely with hin | hlatest
  · rw [latest_iff]
    intro j e hij he hid
    have := h.newest i j d e hij hset.found he hid.symm
    rw [live_iff.mpr ⟨hset.unsettled, of_decide_eq_true hin⟩] at this
    cases this
  · exact hlatest

/-- It is the only one that can be live. -/
theorem Held.alone {j : Nat} {e : Delivery}
    (he : s.deliveries[j]? = some e) (hij : j ≠ i) (hid : e.id = d.id) : s.live e = false := by
  rcases Nat.lt_or_gt_of_ne hij with hlt | hgt
  · exact h.newest j i e d hlt he hset.found hid
  · exact absurd hid (latest_iff.mp (h.latest hset) j e hgt he)

theorem Held.settle (outcome : Outcome) (read : Nat) (log : List Entry) :
    Held { s with rows := outcome.apply d read s.rows
                  deliveries := s.deliveries.set i { d with settled := true }
                  log } := by
  have hothers : ∀ (j : Nat) (e : Delivery), (s.deliveries.set i { d with settled := true })[j]? = some e →
      s.live e → j ≠ i ∧ s.deliveries[j]? = some e := by
    intro j e he hl
    rcases at_set he with ⟨rfl, rfl⟩ | he
    · simp [State.live] at hl
    · exact he
  refine h.replace (h.keyed.apply outcome d read) (beside_apply outcome d read s.rows) h.pops ?_ ?_ ?_
  · intro e he hl _
    obtain ⟨j, hj⟩ := mem_iff_getElem?.mp he
    exact ⟨mem_of_getElem? (hothers j e hj hl).2, hl⟩
  · intro e he hl hid
    obtain ⟨j, hj⟩ := mem_iff_getElem?.mp he
    obtain ⟨hne, hj⟩ := hothers j e hj hl
    have := h.alone hset hj hne hid
    rw [show s.live e = true from hl] at this
    cases this
  · intro j k x y hjk hx hy hid
    rw [eq_false_iff]
    intro hl
    obtain ⟨-, hx'⟩ := hothers j x hx hl
    have hdead : s.live x = false := by
      rcases at_set hy with ⟨rfl, rfl⟩ | ⟨-, hy⟩
      · exact h.newest j k x d hjk hx' hset.found hid
      · exact h.newest j k x y hjk hx' hy hid
    rw [show s.live x = true from hl] at hdead
    cases hdead

omit hset

theorem Held.retry
    (hok : (s.rows.all fun r => r.id ≠ id || r.failedAt.isNone || r.free s.now))
    (hparked : s.rows.affects id (·.failedAt.isSome)) (read : Nat) (log : List Entry) :
    Held { s with rows := s.rows.retry id read, log } := by
  refine h.replace (h.keyed.update id _ fun _ => rfl) (beside_retry s.rows id read) h.pops
    (fun d hd hl _ => ⟨hd, hl⟩) ?_ h.newest
  intro d hd hl hid
  -- The parked row is not leased, and a live delivery has its lease there.
  obtain ⟨r, hr, hrid, hfailed⟩ := affects_iff.mp hparked
  have hlease := (h.leased d hd hl).2 r hr (hrid.trans hid.symm)
  have hfree := all_eq_true.mp hok r hr
  have hnone : r.failedAt.isNone = false := by
    cases hf : r.failedAt with
    | none => rw [hf] at hfailed; cases hfailed
    | some => rfl
  obtain ⟨-, hu⟩ := live_iff.mp hl
  have hu : s.now ≤ d.until := hu
  simp [hrid, hnone, Row.free, hlease] at hfree
  omega

/-- **One step.** -/
theorem held_step {a : Action} (hok : inTime s a)
    (ht : step s a = some t) : Held t := by
  cases a with
  | tick d => cases ht; exact h.tick d
  | push =>
    simp only [step] at ht
    split at ht
    · cases ht
    · next hnew =>
      cases ht
      exact h.push (eq_false_iff.mpr hnew) _
  | pop =>
    cases ht
    exact h.calls (forall_concat h.pops (Nat.le_refl _))
  | select =>
    simp only [step] at ht
    split at ht
    · next p hp =>
      split at ht
      · cases ht
      · cases ht
        exact h.calls (forall_set h.pops (h.pops p (mem_of_getElem? hp)))
    · cases ht
  | claim =>
    obtain ⟨p, hp, ht⟩ := Option.bind_eq_some_iff.mp ht
    exact h.claim hp ht
  | settle i outcome read =>
    simp only [step] at ht
    split at ht
    · next d hd =>
      split at ht
      · cases ht
      · cases ht
        exact h.settle (.of hd hok) outcome read _
    · cases ht
  | retry _ read =>
    simp only [step] at ht
    split at ht
    · cases ht
    · split at ht
      · next hparked =>
        cases ht
        exact h.retry hok hparked read _
      · cases ht
        exact h

omit h

theorem held_of_reach {now : Nat} {rows : Table} (hrows : rows.Keyed)
    (h : Reach step inTime { now, rows } s) : Held s :=
  h.invariant (held_initial now hrows) fun _ _ _ hs hok ht => held_step hs hok ht

/-- **A job is held by one worker at a time.**  In a run whose steps are in time two live deliveries
of one job are the same, and a delivery past its lease changes nothing while a later one is live. -/
theorem deliveries_exclude {now : Nat} {rows : Table} (hrows : rows.Keyed) {s : State}
    (h : Reach step inTime { now, rows } s) {i j : Nat} {d e : Delivery}
    (hd : s.deliveries[i]? = some d) (he : s.deliveries[j]? = some e) (hid : d.id = e.id)
    (hlive : s.live e = true) :
    (s.live d = true → i = j) ∧
      ∀ outcome read t, i < j → d.until < s.now → inTime s (.settle i outcome read) = true →
        step s (.settle i outcome read) = some t → t.rows = s.rows := by
  have hheld := held_of_reach hrows h
  constructor
  · intro hl
    rcases Nat.lt_trichotomy i j with hij | hij | hij
    · rw [hheld.newest i j d e hij hd he hid] at hl
      cases hl
    · exact hij
    · rw [hheld.newest j i e d hij he hd hid.symm] at hlive
      cases hlive
  · intro outcome read t hij _ hok ht
    simp only [step, hd] at ht
    split at ht
    · cases ht
    · rw [hheld.alone (.of hd hok) he (by omega) hid.symm] at hlive
      cases hlive

/-! ### Where it fails -/

/-- One job on the default queue. -/
def oneJob : State := { rows := [{ id := "x", queue := "default", runAt := 0 }] }

/-- A delivery of the job that is live. -/
def State.holds (s : State) (i : Nat) (id : String) : Bool :=
  s.deliveries[i]?.any fun d => d.id = id && s.live d

theorem State.holds_iff :
    s.holds i id ↔ ∃ d, s.deliveries[i]? = some d ∧ d.id = id ∧ s.live d := by
  simp [State.holds, Option.any_eq_true]

/-- The first worker is done in time, and the job goes to a second one. -/
theorem deliveries_exclude_in_turn : ∃ s : State, s.holds 1 "x" = true ∧ ∀ i, s.holds i "x" = true → i = 1 := by
  obtain ⟨s, hrun, hp⟩ : ∃ s, Reach step inTime oneJob s ∧ s.holds 1 "x" :=
    Run.exists_reach [.pop "" 1 10, .select 0, .claim 0, .settle 0 (.release 0 "no" true) 0, .tick 1,
      .pop "" 1 10, .select 1, .claim 1] (by decide +kernel)
  obtain ⟨e, he, heid, hlive⟩ := State.holds_iff.mp hp
  refine ⟨s, hp, fun i hi => ?_⟩
  obtain ⟨d, hd, hdid, hd'⟩ := State.holds_iff.mp hi
  exact (deliveries_exclude (by decide) hrun hd he (hdid.trans heid.symm) hlive).1 hd'

/-- **Two workers hold one job.**  The first one outlives its lease and releases the job the second
one has; a third one takes it.  Or the job is parked between the select and the claim of a worker,
and a retry takes the lease of that worker off. -/
theorem overdue_release_shares_job :
    (∃ s, Reach step (fun _ _ => true) oneJob s ∧ s.holds 1 "x" = true ∧ s.holds 2 "x" = true) ∧
      ∃ s, Reach step (fun _ _ => true) oneJob s ∧ s.holds 1 "x" = true ∧ s.holds 2 "x" = true := by
  constructor
  · exact Run.exists_reach [.pop "" 1 10, .select 0, .claim 0, .tick 11, .pop "" 1 10, .select 1, .claim 1,
      .settle 0 (.release 0 "late" true) 11, .pop "" 1 10, .select 2, .claim 2] (by decide +kernel)
  · exact Run.exists_reach [.pop "" 1 10, .pop "" 1 10, .select 0, .select 1, .claim 0,
      .settle 0 (.fail none) 0, .claim 1, .retry "x" 0, .pop "" 1 10, .select 2, .claim 2] (by decide +kernel)

end Hesape.Queue.Database
