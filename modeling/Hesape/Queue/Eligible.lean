import Hesape.Queue.Leases

/-!
# What a claim takes

`Pop` tests a row in its select and claims it in a later statement that asks for the lease only, and
hands out the job as it was selected, with one attempt more.  Whatever became of the row in between
is not seen.  `untouched` is the condition that nothing did: a claim that goes through finds the
row as it was selected.

Then the job was eligible at the claim, the row counts the deliveries since the last retry
(`Counted.attempts`) and the failures that were recorded (`Counted.exceptions`), and the worker sees
these counts (`claim_takes_eligible`).  For the failures the deliveries have to be settled in time as
well: a release writes the count of its worker.
-/

namespace Hesape.Queue.Database

open Hesape.Run (Reach at_set at_append forall_set forall_concat)
open List

/-! ### The counts -/

/-- The job starts over: it is pushed, or retried. -/
def Entry.restarts (id : String) : Entry → Bool
  | .pushed i => i = id
  | .retried i => i = id
  | _ => false

/-- The job an entry is about. -/
def Entry.id : Entry → String
  | .pushed i => i
  | .claimed i => i
  | .failure i => i
  | .retried i => i

/-- How often something happened to its job since the job last started over. -/
def since (mark : Entry) : List Entry → Nat
  | [] => 0
  | e :: log => if e.restarts mark.id then 0 else (if e = mark then 1 else 0) + since mark log

theorem since_other {mark e : Entry} (he : e.id ≠ mark.id) (log : List Entry) :
    since mark (e :: log) = since mark log := by
  have hr : e.restarts mark.id = false := by
    cases e <;> simp_all [Entry.restarts, Entry.id]
  have hm : e ≠ mark := fun h => he (h ▸ rfl)
  rw [since, hr, if_neg hm]
  simp

/-- The steps are in time, and a claim that goes through finds the row as it was selected. -/
def untouched (s : State) : Action → Bool
  | .claim call => s.pops[call]?.all fun p =>
      (p.candidates.getD []).head?.all fun c => s.rows.all fun r => r.id ≠ c.id || !r.free p.now || r = c
  | a => inTime s a

theorem inTime_of_untouched (s : State) (a : Action) (h : untouched s a) : inTime s a := by
  cases a <;> first | rfl | exact h

/-- What holds in a run whose claims find the rows untouched. -/
structure Counted (s : State) : Prop where
  held : Held s
  candidates : ∀ p ∈ s.pops, ∀ c ∈ p.candidates.getD [], c.eligible p.queue p.now = true
  attempts : ∀ r ∈ s.rows, r.attempts = since (.claimed r.id) s.log
  exceptions : ∀ r ∈ s.rows, r.exceptions = since (.failure r.id) s.log
  current : ∀ (i : Nat) (d : Delivery), s.deliveries[i]? = some d → d.settled = false →
    s.latest i d = true → ∃ r ∈ s.rows, r.id = d.id ∧ r.exceptions = d.exceptions ∧ r.failedAt = none

variable {s t : State} {i : Nat} {d : Delivery} {r : Row} {p : Pop}

theorem counted_initial (now : Nat) : Counted { now } where
  held := held_initial now nodup_nil
  candidates := by simp
  attempts := by simp
  exceptions := by simp
  current := by simp

theorem mem_candidates {t : Table} {queue : String} {now n : Nat} {c : Row}
    (h : c ∈ t.candidates queue now n) : c.eligible queue now := by
  have := mem_of_mem_take h
  rw [(perm_insertionSort _ _).mem_iff] at this
  exact (mem_filter.mp this).2

/-! ### The steps -/

/-- A step that touches one job only: its row, its deliveries, and entries about it. -/
theorem Counted.replace (h : Counted s) (id : String) (hheld : Held t)
    (hpops : ∀ p ∈ t.pops, ∀ c ∈ p.candidates.getD [], c.eligible p.queue p.now)
    (hrows : s.rows.Beside t.rows id)
    (hlog : ∀ mark : Entry, mark.id ≠ id → since mark t.log = since mark s.log)
    (hdeliveries : ∀ (i : Nat) (d : Delivery), d.id ≠ id → t.deliveries[i]? = some d →
      t.latest i d → s.deliveries[i]? = some d ∧ s.latest i d)
    (hrow : ∀ r ∈ t.rows, r.id = id → r.attempts = since (.claimed id) t.log
      ∧ r.exceptions = since (.failure id) t.log)
    (hcurrent : ∀ (i : Nat) (d : Delivery), d.id = id → t.deliveries[i]? = some d → d.settled = false →
      t.latest i d → ∃ r ∈ t.rows, r.id = d.id ∧ r.exceptions = d.exceptions ∧ r.failedAt = none) :
    Counted t := by
  refine ⟨hheld, hpops, fun r hr => ?_, fun r hr => ?_, fun i d hd hset hlatest => ?_⟩
  · by_cases hid : r.id = id
    · rw [hid]
      exact (hrow r hr hid).1
    · rw [hlog (.claimed r.id) hid]
      exact h.attempts r ((hrows r hid).mp hr)
  · by_cases hid : r.id = id
    · rw [hid]
      exact (hrow r hr hid).2
    · rw [hlog (.failure r.id) hid]
      exact h.exceptions r ((hrows r hid).mp hr)
  · by_cases hid : d.id = id
    · exact hcurrent i d hid hd hset hlatest
    · obtain ⟨hd', hlatest'⟩ := hdeliveries i d hid hd hlatest
      obtain ⟨r, hr, hrid, hrest⟩ := h.current i d hd' hset hlatest'
      exact ⟨r, (hrows r (by rwa [hrid])).mpr hr, hrid, hrest⟩

theorem Counted.calls (h : Counted s) {pops : List Pop} (hp : ∀ p ∈ pops, p.now ≤ s.now)
    (hc : ∀ p ∈ pops, ∀ c ∈ p.candidates.getD [], c.eligible p.queue p.now) :
    Counted { s with pops } :=
  ⟨h.held.calls hp, hc, h.attempts, h.exceptions, h.current⟩

theorem Counted.push (h : Counted s) (hr : s.rows.any (·.id = r.id) = false)
    (hzero : r.attempts = 0 ∧ r.exceptions = 0) :
    Counted { s with rows := s.rows ++ [r], log := .pushed r.id :: s.log } := by
  have hnew : ∀ q ∈ s.rows, q.id ≠ r.id := fun q hq => by
    simpa using any_eq_false.mp hr q hq
  have hreset : ∀ mark : Entry, mark.id = r.id → since mark (.pushed r.id :: s.log) = 0 := fun mark hm => by
    simp [since, Entry.restarts, hm]
  refine h.replace r.id (h.held.push hr _) h.candidates ?_ ?_ (fun i d _ hd hl => ⟨hd, hl⟩) ?_ ?_
  · intro q hq
    simp [show q ≠ r from fun he => hq (he ▸ rfl)]
  · intro mark hmark
    exact since_other (e := .pushed r.id) (Ne.symm hmark) s.log
  · intro q hq hid
    rcases (mem_append.mp hq).imp_right mem_singleton.mp with hq | rfl
    · exact absurd hid (hnew q hq)
    · rw [hreset _ rfl, hreset _ rfl]
      exact hzero
  · intro i d hid hd hset hlatest
    obtain ⟨q, hq, hqid, -⟩ := h.current i d hd hset hlatest
    exact absurd (hqid.trans hid) (hnew q hq)

/-- A claim that goes through, on a row that is as it was selected. -/
structure Claims (s t : State) (p : Pop) (r : Row) : Prop where
  mem : r ∈ s.rows
  eligible : r.eligible p.queue p.now = true
  rows : t.rows = s.rows.claim r.id p.now (p.now + p.lease)
  deliveries : t.deliveries = s.deliveries ++ [r.delivered (p.now + p.lease)]
  log : t.log = .claimed r.id :: s.log

theorem claim_cases (h : Counted s) {call : Nat} (hp : s.pops[call]? = some p)
    (hok : untouched s (.claim call)) (ht : claim s call p = some t) :
    (∀ q ∈ t.pops, ∀ c ∈ q.candidates.getD [], c.eligible q.queue q.now) ∧
      ((t.rows = s.rows ∧ t.deliveries = s.deliveries ∧ t.log = s.log) ∨ ∃ r, Claims s t p r) := by
  unfold claim at ht
  split at ht
  · next c rest hc =>
    have hcand : ∀ x ∈ c :: rest, x.eligible p.queue p.now := by
      have := h.candidates p (mem_of_getElem? hp)
      rwa [hc, Option.getD_some] at this
    have hpops : ∀ q ∈ s.pops.set call { p with candidates := some rest }, ∀ x ∈ q.candidates.getD [],
        x.eligible q.queue q.now :=
      forall_set h.candidates fun x hx => hcand x (mem_cons_of_mem _ hx)
    simp only at ht
    split at ht
    · next hfree =>
      cases ht
      refine ⟨hpops, .inr ⟨c, ?_⟩⟩
      obtain ⟨r, hr, hrid, hrfree⟩ := affects_iff.mp hfree
      rw [untouched, hp, Option.all_some, hc, Option.getD_some, head?_cons, Option.all_some] at hok
      have hrc := all_eq_true.mp hok r hr
      simp only [hrid, hrfree, ne_eq, not_true_eq_false, decide_false, Bool.not_true, Bool.or_self,
        Bool.false_or, decide_eq_true_eq] at hrc
      exact ⟨hrc ▸ hr, hcand c (by simp), rfl, rfl, rfl⟩
    · cases ht
      exact ⟨hpops, .inl ⟨rfl, rfl, rfl⟩⟩
  · cases ht

theorem Claims.row (hc : Claims s t p r) :
    { r with reservedUntil := some (p.now + p.lease), attempts := r.attempts + 1 } ∈ t.rows := by
  have hfree : r.free p.now := by
    have := hc.eligible
    simp only [Row.eligible, Bool.and_eq_true] at this
    exact this.2
  have := mem_map_of_mem (f := fun q : Row => if q.id = r.id ∧ q.free p.now = true then
    { q with reservedUntil := some (p.now + p.lease), attempts := q.attempts + 1 } else q) hc.mem
  rw [if_pos ⟨rfl, hfree⟩] at this
  rw [hc.rows]
  exact this

/-- After a claim the row counts it. -/
theorem Claims.counted (hc : Claims s t p r) (h : Counted s) :
    r.attempts + 1 = since (.claimed r.id) t.log ∧ r.exceptions = since (.failure r.id) t.log := by
  rw [hc.log, since, since, h.attempts r hc.mem, h.exceptions r hc.mem]
  simp [Entry.restarts, Nat.add_comm]

theorem Counted.claim (h : Counted s) {call : Nat} (hp : s.pops[call]? = some p)
    (hok : untouched s (.claim call)) (ht : claim s call p = some t) : Counted t := by
  have hheld := h.held.claim hp ht
  obtain ⟨hpops, ⟨hr, hd, hl⟩ | ⟨r, hc⟩⟩ := claim_cases h hp hok ht
  · refine ⟨hheld, hpops, ?_, ?_, ?_⟩
    · rw [hr, hl]; exact h.attempts
    · rw [hr, hl]; exact h.exceptions
    · rw [hr, hd]
      intro i d hid hset hlatest
      exact h.current i d hid hset (by rwa [State.latest, hd] at hlatest)
  · refine h.replace r.id hheld hpops (hc.rows ▸ beside_claim s.rows r.id p.now (p.now + p.lease)) ?_ ?_ ?_ ?_
    · intro _ hmark
      rw [hc.log]
      exact since_other (e := .claimed r.id) (Ne.symm hmark) s.log
    · intro i d hid hd hlatest
      rw [hc.deliveries] at hd
      rcases at_append hd with hd | ⟨-, rfl⟩
      · refine ⟨hd, latest_iff.mpr fun j e hij he => latest_iff.mp hlatest j e hij ?_⟩
        rw [hc.deliveries, List.getElem?_append_left (List.getElem?_eq_some_iff.mp he).1]
        exact he
      · exact absurd rfl hid
    · intro q hq hid
      rw [hheld.keyed.eq hq hc.row hid]
      exact hc.counted h
    · intro i d hid hd hset hlatest
      have hnew : t.deliveries[s.deliveries.length]? = some (r.delivered (p.now + p.lease)) := by
        rw [hc.deliveries, List.getElem?_concat_length]
      rw [hc.deliveries] at hd
      rcases at_append hd with hd | ⟨-, rfl⟩
      · exact absurd hid.symm (latest_iff.mp hlatest _ _ (List.getElem?_eq_some_iff.mp hd).1 hnew)
      · have := hc.eligible
        simp only [Row.eligible, Bool.and_eq_true, Option.isNone_iff_eq_none] at this
        exact ⟨_, hc.row, rfl, rfl, this.1.1.2⟩

/-- What a settlement makes of the row of its job. -/
theorem Outcome.mem_apply {o : Outcome} {read : Nat} {t : Table} {q : Row}
    (hq : q ∈ o.apply d read t) (hid : q.id = d.id) :
    ∃ r ∈ t, r.id = d.id ∧ q.attempts = r.attempts ∧
      (q.exceptions = r.exceptions ∧ (∀ delay e, o ≠ .release delay e true) ∨
        ∃ delay e counted, o = .release delay e counted ∧ q.exceptions = d.exceptions + if counted then 1 else 0) := by
  cases o with
  | delete =>
    have := (mem_filter.mp hq).2
    simp [hid] at this
  | release delay e counted =>
    rcases mem_update hq with ⟨-, hne⟩ | ⟨r, hr, hrid, -, rfl⟩
    · exact absurd ⟨hid, rfl⟩ hne
    · exact ⟨r, hr, hrid, rfl, .inr ⟨delay, e, counted, rfl, rfl⟩⟩
  | fail =>
    rcases mem_update hq with ⟨-, hne⟩ | ⟨r, hr, hrid, -, rfl⟩
    · exact absurd ⟨hid, rfl⟩ hne
    · exact ⟨r, hr, hrid, rfl, .inl ⟨rfl, by simp⟩⟩

/-- The entry of a settlement. -/
def Outcome.logged (o : Outcome) (d : Delivery) (log : List Entry) : List Entry :=
  match o with
  | .release _ _ true => .failure d.id :: log
  | _ => log

theorem Counted.settle (h : Counted s) (hset : Settling s i d) (outcome : Outcome) (read : Nat) :
    Counted { s with rows := outcome.apply d read s.rows
                     deliveries := s.deliveries.set i { d with settled := true }
                     log := outcome.logged d s.log } := by
  have hlatest := h.held.latest hset
  obtain ⟨r, hr, hrid, _, -⟩ := h.current i d hset.found hset.unsettled hlatest
  refine h.replace d.id (h.held.settle hset outcome read _) h.candidates
    (beside_apply outcome d read s.rows) ?_ ?_ ?_ ?_
  · intro _ hmark
    simp only [Outcome.logged]
    split
    · exact since_other (e := .failure d.id) (Ne.symm hmark) s.log
    · rfl
  · intro j e hid hj hl
    rcases at_set hj with ⟨-, rfl⟩ | ⟨-, hj⟩
    · exact absurd rfl hid
    · refine ⟨hj, latest_iff.mpr fun k x hjk hx => ?_⟩
      by_cases hk : k = i
      · subst hk
        rw [hset.found] at hx
        cases hx
        exact Ne.symm hid
      · exact latest_iff.mp hl k x hjk (by rw [getElem?_set_ne (Ne.symm hk)]; exact hx)
  · intro q hq hid
    obtain ⟨_, hq', hqid, hatt, hexc⟩ := Outcome.mem_apply hq hid
    rw [h.held.keyed.eq hq' hr (hqid.trans hrid.symm)] at hatt hexc
    have hattempts := h.attempts r hr
    have hexceptions := h.exceptions r hr
    rw [hrid] at hattempts hexceptions
    simp only [Outcome.logged]
    split
    · rw [since, since]
      simp only [Entry.restarts, Bool.false_eq_true, if_false, if_true, reduceCtorEq, Nat.zero_add]
      rcases hexc with ⟨-, hne⟩ | ⟨delay, e, counted, ho, hexc⟩
      · exact absurd rfl (hne _ _)
      · cases ho
        exact ⟨by omega, by rw [if_pos rfl] at hexc; omega⟩
    · next hne =>
      refine ⟨by omega, ?_⟩
      rcases hexc with ⟨hexc, -⟩ | ⟨delay, e, counted, ho, hexc⟩
      · omega
      · cases counted with
        | true => exact absurd ho (hne _ _)
        | false =>
          rw [if_neg Bool.false_ne_true] at hexc
          omega
  · intro j e hid hj hsettled hl
    rcases at_set hj with ⟨-, rfl⟩ | ⟨hne, hj'⟩
    · cases hsettled
    · exfalso
      rcases Nat.lt_or_gt_of_ne hne with hlt | hgt
      · have hi : (s.deliveries.set i { d with settled := true })[i]? = some { d with settled := true } := by
          rw [List.getElem?_set_self (List.getElem?_eq_some_iff.mp hset.found).1]
        exact latest_iff.mp hl i _ hlt hi hid.symm
      · exact latest_iff.mp hlatest j e hgt hj' hid

theorem Counted.retry (h : Counted s) {id : String}
    (hok : (s.rows.all fun r => r.id ≠ id || r.failedAt.isNone || r.free s.now))
    (hparked : s.rows.affects id (·.failedAt.isSome)) (read : Nat) :
    Counted { s with rows := s.rows.retry id read, log := .retried id :: s.log } := by
  obtain ⟨r, hr, hrid, hfailed⟩ := affects_iff.mp hparked
  refine h.replace id (h.held.retry hok hparked read _) h.candidates (beside_retry s.rows id read) ?_
    (fun i d _ hd hl => ⟨hd, hl⟩) ?_ ?_
  · intro mark hmark
    exact since_other (e := .retried id) (Ne.symm hmark) s.log
  · intro q hq hid
    have hreset : ∀ mark : Entry, mark.id = id → since mark (.retried id :: s.log) = 0 := fun mark hm => by
      simp [since, Entry.restarts, hm]
    rw [hreset _ rfl, hreset _ rfl]
    rcases mem_update hq with ⟨hq, hne⟩ | ⟨p, -, -, -, rfl⟩
    · rw [h.held.keyed.eq hq hr (hid.trans hrid.symm)] at hne
      exact absurd ⟨hrid, hfailed⟩ hne
    · exact ⟨rfl, rfl⟩
  · -- A job that is parked has no delivery to come.
    intro i d hid hd hset hlatest
    obtain ⟨q, hq, hqid, -, hnone⟩ := h.current i d hd hset hlatest
    rw [h.held.keyed.eq hq hr (hqid.trans (hid.trans hrid.symm))] at hnone
    rw [hnone] at hfailed
    cases hfailed

theorem counted_step {a : Action} (h : Counted s) (hok : untouched s a)
    (ht : step s a = some t) : Counted t := by
  cases a with
  | tick d =>
    cases ht
    exact ⟨h.held.tick d, h.candidates, h.attempts, h.exceptions, h.current⟩
  | push id queue runAt =>
    simp only [step] at ht
    split at ht
    · cases ht
    · next hnew =>
      cases ht
      exact h.push (r := { id, queue, runAt := dueAt runAt s.now, createdAt := some s.now })
        (Bool.eq_false_iff.mpr hnew) ⟨rfl, rfl⟩
  | pop =>
    have hheld := held_step h.held rfl ht
    cases ht
    exact h.calls hheld.pops (forall_concat h.candidates fun _ hc => by cases hc)
  | select =>
    have hheld := held_step h.held rfl ht
    simp only [step] at ht
    split at ht
    · next p hp =>
      split at ht
      · cases ht
      · cases ht
        exact h.calls hheld.pops (forall_set h.candidates fun _ => mem_candidates)
    · cases ht
  | claim =>
    obtain ⟨p, hp, ht⟩ := Option.bind_eq_some_iff.mp ht
    exact h.claim hp hok ht
  | settle i outcome read =>
    simp only [step] at ht
    split at ht
    · next d hd =>
      split at ht
      · cases ht
      · cases ht
        exact h.settle (.of hd (inTime_of_untouched _ _ hok)) outcome read
    · cases ht
  | retry _ read =>
    simp only [step] at ht
    split at ht
    · cases ht
    · split at ht
      · next hparked =>
        cases ht
        exact h.retry hok hparked read
      · cases ht
        exact h

theorem counted_of_reach {now : Nat} (h : Reach step untouched { now } s) : Counted s :=
  h.invariant (counted_initial now) fun _ _ _ hs hok ht => counted_step hs hok ht

/-- **A claim takes an eligible job and counts it.**  In a run whose claims find the rows untouched,
a job that is handed out was on the queue, not parked, due and not leased at its claim, and the
worker sees the counts of the row: the deliveries and the recorded failures since the last
retry. -/
theorem claim_takes_eligible {now : Nat} {s t : State} (h : Reach step untouched { now } s) {call : Nat}
    {p : Pop} (hp : s.pops[call]? = some p) (hok : untouched s (.claim call) = true)
    (ht : step s (.claim call) = some t) {d : Delivery} (hd : t.deliveries = s.deliveries ++ [d]) :
    (∃ r ∈ s.rows, r.id = d.id ∧ r.queue = p.queue ∧ r.failedAt = none ∧ r.runAt ≤ s.now
      ∧ r.free s.now = true) ∧
    (∃ r ∈ t.rows, r.id = d.id ∧ r.attempts = d.attempts ∧ r.exceptions = d.exceptions) ∧
    d.attempts = since (.claimed d.id) t.log ∧ d.exceptions = since (.failure d.id) t.log := by
  have hc := counted_of_reach h
  have hnow : p.now ≤ s.now := hc.held.pops p (mem_of_getElem? hp)
  obtain ⟨_, hp', ht⟩ := Option.bind_eq_some_iff.mp ht
  rw [hp] at hp'
  cases hp'
  obtain ⟨-, ⟨-, hsame, -⟩ | ⟨r, hclaim⟩⟩ := claim_cases hc hp hok ht
  · rw [hsame] at hd
    simp at hd
  · have hdr : d = r.delivered (p.now + p.lease) := by
      have := hclaim.deliveries
      rw [hd] at this
      simpa using this
    subst hdr
    have heligible := hclaim.eligible
    simp only [Row.eligible, Bool.and_eq_true, decide_eq_true_eq, Option.isNone_iff_eq_none] at heligible
    obtain ⟨⟨⟨hqueue, hparked⟩, _⟩, hfree⟩ := heligible
    refine ⟨⟨r, hclaim.mem, rfl, hqueue, hparked, by omega, ?_⟩, ⟨_, hclaim.row, rfl, rfl, rfl⟩, hclaim.counted hc⟩
    cases hl : r.reservedUntil with
    | none => simp [Row.free, hl]
    | some u =>
      have : u < p.now := by simpa [Row.free, hl] using hfree
      simp only [Row.free, hl, Option.all_some, decide_eq_true_eq]
      omega

/-- The second delivery of a job that failed once. -/
def again : Delivery := ⟨"x", "default", 2, 1, "no", 10, false⟩

theorem claim_takes_eligible_again : ∃ s t, (∃ r ∈ s.rows, r.id = "x" ∧ r.runAt ≤ s.now) ∧
    step s (.claim 1) = some t ∧ t.deliveries = s.deliveries ++ [again] ∧
      2 = since (.claimed "x") t.log ∧ 1 = since (.failure "x") t.log := by
  obtain ⟨s, hrun, hp⟩ : ∃ s, Reach step untouched { now := 0 } s ∧ (untouched s (.claim 1)
      && s.pops[1]?.isSome && (step s (.claim 1)).any fun t => t.deliveries = s.deliveries ++ [again]) :=
    Run.exists_reach [.push "x" "default" 0, .pop "" 1 10, .select 0, .claim 0,
      .settle 0 (.release 0 "no" true) 0, .pop "" 1 10, .select 1] (by decide +kernel)
  simp only [Bool.and_eq_true, Option.isSome_iff_exists, Option.any_eq_true, decide_eq_true_eq] at hp
  obtain ⟨⟨hok, p, hpop⟩, t, ht, hd⟩ := hp
  obtain ⟨⟨r, hr, hid, -, -, hdue, -⟩, -, hattempts, hexceptions⟩ := claim_takes_eligible hrun hpop hok ht hd
  exact ⟨s, t, ⟨r, hr, hid, hdue⟩, ht, hd, hattempts, hexceptions⟩

/-- What the second of two workers that selected one job holds. -/
def first : Delivery := ⟨"x", "default", 1, 0, "", 10, false⟩

/-- The second of the two claims after a settlement of the first, on a row with the property. -/
theorem second_claim (p : State → Row → Bool) (outcome : Outcome)
    (h : ((Run.follow step (fun _ _ => true) { now := 0 } [.push "x" "default" 0, .pop "" 1 10, .pop "" 1 10,
      .select 0, .select 1, .claim 0, .settle 0 outcome 0]).any fun s =>
        (s.rows.any (fun r => r.id = "x" && p s r) && (step s (.claim 1)).any fun t =>
          t.deliveries = s.deliveries ++ [first] && t.rows.any fun r => r.id = "x" && r.attempts = 2) = true) = true) :
    ∃ s t, Reach step (fun _ _ => true) { now := 0 } s ∧ step s (.claim 1) = some t
      ∧ t.deliveries = s.deliveries ++ [first] ∧ (∃ r ∈ s.rows, r.id = "x" ∧ p s r = true)
      ∧ ∃ r ∈ t.rows, r.id = "x" ∧ r.attempts = 2 := by
  obtain ⟨s, hrun, hp⟩ := Run.exists_reach _ h
  simp only [Bool.and_eq_true, any_eq_true, Option.any_eq_true, decide_eq_true_eq] at hp
  obtain ⟨hrow, t, ht, hd, hafter⟩ := hp
  exact ⟨s, t, hrun, ht, hd, hrow, hafter⟩

/-- **A claim takes what it selected, not what is there.**  Two workers select one job; the first one
claims it and parks it, or releases it for later, and the second one claims it all the same, as its
first attempt where the row says the second. -/
theorem claim_takes_parked :
    (∃ s t, Reach step (fun _ _ => true) { now := 0 } s ∧ step s (.claim 1) = some t
      ∧ t.deliveries = s.deliveries ++ [first] ∧ (∃ r ∈ s.rows, r.id = "x" ∧ r.failedAt.isSome)
      ∧ ∃ r ∈ t.rows, r.id = "x" ∧ r.attempts = 2) ∧
    ∃ s t, Reach step (fun _ _ => true) { now := 0 } s ∧ step s (.claim 1) = some t
      ∧ t.deliveries = s.deliveries ++ [first]
      ∧ (∃ r ∈ s.rows, r.id = "x" ∧ decide (s.now < r.runAt))
      ∧ ∃ r ∈ t.rows, r.id = "x" ∧ r.attempts = 2 :=
  ⟨second_claim (fun _ r => r.failedAt.isSome) (.fail none) (by decide +kernel),
    second_claim (fun s r => decide (s.now < r.runAt)) (.release 100 "no" true) (by decide +kernel)⟩

end Hesape.Queue.Database
