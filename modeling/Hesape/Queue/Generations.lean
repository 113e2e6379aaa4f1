import Hesape.Queue.Redis

/-!
# The attempt as the delivery's number

`settleLeased` knows the delivery it is for by the attempt count: the claim that holds the job has
the count the body has.  The count grows with every claim, so among the claims made since the job
was put in line it tells them apart (`Numbered.rising`); but `Retry` sets it back to zero, and the
next claim has the number an earlier one had.  `current` is the condition that no delivery from
before a retry, or from before another push of the id, is settled after it.

Under it a settlement that takes effect is that of the delivery that holds the job
(`settles_own_delivery`).  The argument follows one job at a time: `Numbered` says what its counts
are, `Proc.Counts` what a client may conclude from the body it has read, as long as the set it
watches has not changed, and `State.Apart` what a command leaves alone.
-/

namespace Hesape.Queue.Redis

open Hesape.Redis (Store)
open Hesape.Run (Reach at_append forall_set forall_concat)
open List

def currentTask (s : State) : Task → Point → Bool
  | .push id _, _ => s.store.members.all (·.id ≠ id)
  | .tx (.settleLeased delivery id _ _ _), .loaded _ _ => s.deliveries[delivery]?.all (·.epoch = s.epochs id)
  | _, _ => true

/-- A pushed id is in no set, and a delivery is settled only while its job has not been retried, or
pushed again, since the claim. -/
def current (s : State) : Action → Bool
  | .go i => s.procs[i]?.all fun p => p.tasks.head?.all fun task => currentTask s task p.point
  | _ => true

/-! ### The counts of one job -/

/-- The delivery holds the job, and is the latest since the job was put in line. -/
structure State.Holds (s : State) (id : String) (i : Nat) (d : Delivery) : Prop where
  holder : s.holder id = some i
  made : s.deliveries[i]? = some d
  same : d.id = id
  epoch : d.epoch = s.epochs id
  latest : ∀ e ∈ s.deliveries, e.id = id → e.epoch = s.epochs id → e.job.attempts ≤ d.job.attempts

structure Numbered (s : State) (id : String) : Prop where
  past : ∀ d ∈ s.deliveries, d.id = id → d.epoch ≤ s.epochs id
  top : ∀ d ∈ s.deliveries, d.id = id → d.epoch = s.epochs id → ∀ b, s.store.fields id = some b →
    d.job.attempts ≤ b.attempts
  rising : ∀ (i j : Nat) (d e : Delivery), i < j → s.deliveries[i]? = some d → s.deliveries[j]? = some e →
    d.id = id → e.id = id → d.epoch = e.epoch → d.job.attempts < e.job.attempts
  held : ∀ queue, s.store.has (.leased queue) id = true → ∃ i d, s.Holds id i d ∧
    ∀ b, s.store.fields id = some b → b.attempts = d.job.attempts

/-- What a change may do to the other jobs: their bodies and leases may go, and deliveries of other
jobs be made. -/
structure State.Apart (s u : State) (id : String) : Prop where
  leases : ∀ queue, u.store.has (.leased queue) id = true → s.store.has (.leased queue) id = true
  bodies : ∀ b, u.store.fields id = some b → s.store.fields id = some b
  holder : ∀ queue, u.store.has (.leased queue) id = true → u.holder id = s.holder id
  epochs : u.epochs id = s.epochs id
  deliveries : ∃ more, u.deliveries = s.deliveries ++ more ∧ ∀ d ∈ more, d.id ≠ id

namespace State.Apart

variable {s u : State} {id : String}

variable {d : Delivery}

theorem mem (h : s.Apart u id) (hd : d ∈ u.deliveries) (hid : d.id = id) : d ∈ s.deliveries := by
  obtain ⟨_, hmore, hne⟩ := h.deliveries
  rw [hmore] at hd
  rcases mem_append.mp hd with hd | hd
  · exact hd
  · exact absurd hid (hne d hd)

theorem made (h : s.Apart u id) {i : Nat} (hid : d.id = id) :
    u.deliveries[i]? = some d ↔ s.deliveries[i]? = some d := by
  obtain ⟨_, hmore, hne⟩ := h.deliveries
  rw [hmore]
  by_cases hi : i < s.deliveries.length
  · rw [List.getElem?_append_left hi]
  · rw [List.getElem?_append_right (by omega)]
    refine ⟨fun hd => absurd hid (hne d (List.mem_of_getElem? hd)), fun hd => ?_⟩
    exact absurd (List.getElem?_eq_some_iff.mp hd).1 hi

theorem holds (h : s.Apart u id) {queue : String} (hin : u.store.has (.leased queue) id) {i : Nat}
    (hd : s.Holds id i d) : u.Holds id i d where
  holder := by rw [h.holder queue hin, hd.holder]
  made := (h.made hd.same).mpr hd.made
  same := hd.same
  epoch := by rw [h.epochs, hd.epoch]
  latest e he hid hep := hd.latest e (h.mem he hid) hid (by rw [hep, h.epochs])

end State.Apart

namespace Numbered

variable {s u : State} {id : String}

variable (h : Numbered s id)
include h

theorem apart (ha : s.Apart u id) : Numbered u id where
  past d hd hid := by
    rw [ha.epochs]
    exact h.past d (ha.mem hd hid) hid
  top d hd hid hep b hb := h.top d (ha.mem hd hid) hid (by rw [hep, ha.epochs]) b (ha.bodies b hb)
  rising i j d e hij hd he hdid heid hep :=
    h.rising i j d e hij ((ha.made hdid).mp hd) ((ha.made heid).mp he) hdid heid hep
  held queue hq := by
    obtain ⟨i, d, hd, hb⟩ := h.held queue (ha.leases queue hq)
    exact ⟨i, d, ha.holds hq hd, fun b hb' => hb b (ha.bodies b hb')⟩

/-- A job that nobody holds, put in line anew or with a body no older than its deliveries. -/
theorem unheld (hd : u.deliveries = s.deliveries) (he : s.epochs id ≤ u.epochs id)
    (hfree : ∀ queue, u.store.has (.leased queue) id = false)
    (htop : ∀ d ∈ s.deliveries, d.id = id → d.epoch = u.epochs id → ∀ b, u.store.fields id = some b →
      d.job.attempts ≤ b.attempts) : Numbered u id where
  past d hmem hid := by
    rw [hd] at hmem
    exact (h.past d hmem hid).trans he
  top d hmem := by
    rw [hd] at hmem
    exact htop d hmem
  rising := by
    rw [hd]
    exact h.rising
  held queue hq := by
    rw [hfree] at hq
    cases hq

/-- A job that was put in line anew has no deliveries yet. -/
theorem anew (hd : u.deliveries = s.deliveries) (he : u.epochs id = s.epochs id + 1)
    (hfree : ∀ queue, u.store.has (.leased queue) id = false) : Numbered u id := by
  refine h.unheld hd (by omega) hfree fun d hmem hid hep => ?_
  have := h.past d hmem hid
  omega

/-- The next claim has a number no delivery since the last retry has. -/
theorem claimed {stored : Job}
    (hstored : ∀ d ∈ s.deliveries, d.id = id → d.epoch = s.epochs id → d.job.attempts ≤ stored.attempts)
    (hd : u.deliveries = s.deliveries ++ [⟨id, { stored with attempts := stored.attempts + 1 }, s.epochs id⟩])
    (he : u.epochs id = s.epochs id) (hh : u.holder id = some s.deliveries.length)
    (hb : u.store.fields id = some { stored with attempts := stored.attempts + 1 }) : Numbered u id := by
  have hle : ∀ d ∈ u.deliveries, d.id = id → d.epoch = s.epochs id →
      d.job.attempts ≤ stored.attempts + 1 := by
    rw [hd]
    exact forall_concat (fun d hmem hid hep => (hstored d hmem hid hep).trans (Nat.le_succ _)) fun _ _ => le_rfl
  refine ⟨fun d hmem hid => ?_, fun d hmem hid hep b hbb => ?_, fun i j d e hij hdi hej hdid heid hep => ?_,
    fun queue _ => ?_⟩
  · rw [he]
    rw [hd] at hmem
    rcases (mem_append.mp hmem).imp_right mem_singleton.mp with hmem | rfl
    · exact h.past d hmem hid
    · rfl
  · rw [hb] at hbb
    cases hbb
    exact hle d hmem hid (by rw [hep, he])
  · rw [hd] at hdi hej
    rcases at_append hej with hej | ⟨rfl, rfl⟩
    · rcases at_append hdi with hdi | ⟨rfl, -⟩
      · exact h.rising i j d e hij hdi hej hdid heid hep
      · have := (List.getElem?_eq_some_iff.mp hej).1
        omega
    · rcases at_append hdi with hdi | ⟨rfl, -⟩
      · have := hstored d (List.mem_of_getElem? hdi) hdid hep
        exact Nat.lt_succ_of_le this
      · omega
  · refine ⟨s.deliveries.length, _, ⟨hh, by rw [hd, getElem?_concat_length], rfl, he.symm, ?_⟩, ?_⟩
    · intro e hmem hid hep
      exact hle e hmem hid (by rw [hep, he])
    · intro b hbb
      rw [hb] at hbb
      cases hbb
      rfl

end Numbered

/-! ### What a client concludes -/

/-- What the body that was read says, as long as the watched set has not changed. -/
def Tx.Counts (s : State) (stored : Option Job) : Tx → Prop
  | .claim _ id _ _ => ∀ b, stored = some b → ∀ d ∈ s.deliveries, d.id = id → d.epoch = s.epochs id →
      d.job.attempts ≤ b.attempts
  | .settleLeased _ id job _ _ => ∃ i d, s.Holds id i d ∧ d.job.attempts = job.attempts
  | _ => True

def Proc.Counts (p : Proc) (s : State) : Prop :=
  ∀ t rest v stored, p.tasks = .tx t :: rest → p.point = .loaded v stored → s.store.versions t.key = v →
    t.Counts s stored

variable {p : Proc} {t : Tx} {stored : Option Job} {st : Store Key Job} {e : Effect} {job : Job} {i : Nat}

theorem Proc.counts_of_start (h : p.point = .start) (s : State) : p.Counts s := by
  intro t _ v _ _ hv
  rw [h] at hv
  cases hv

variable {s u : State}

theorem Tx.Counts.apart (h : t.Counts s stored)
    (ha : s.Apart u t.id) (hin : u.store.has t.key t.id) : t.Counts u stored := by
  cases t with
  | recoverLease => trivial
  | claim =>
    intro b hb d hd hid hep
    exact h b hb d (ha.mem hd hid) hid (by rw [hep]; exact ha.epochs)
  | settleLeased =>
    obtain ⟨i, d, hd, hj⟩ := h
    exact ⟨i, d, ha.holds hin hd, hj⟩
  | retry => trivial

/-- The set it watches unchanged, a client's id is where it was, before and after. -/
theorem Proc.Knows.still {st' : Store Key Job} (h : p.Knows st) (hs : st.Since st')
    {rest : List Task} {v : Nat} (ht : p.tasks = .tx t :: rest)
    (hv : p.point = .loaded v stored) (hver : st'.versions t.key = v) :
    st.versions t.key = v ∧ st.has t.key t.id ∧ st'.has t.key t.id := by
  have hp := h t rest ht
  simp only [hv] at hp
  have hg := hs.grows t.key
  have hsame : st.versions t.key = v := by omega
  refine ⟨hsame, hp.2 hsame, ?_⟩
  rw [hs.same t.key (by omega)]
  exact hp.2 hsame

/-- What a client concluded stays so under a change that leaves alone the jobs that did not move. -/
theorem Proc.Counts.apart (h : p.Counts s) (hk : p.Knows s.store)
    (hs : s.store.Since u.store)
    (ha : ∀ k id, s.store.has k id → u.store.has k id → s.Apart u id) : p.Counts u := by
  intro t rest v stored ht hv hver
  obtain ⟨hsame, hin, hin'⟩ := hk.still hs ht hv hver
  exact (h t rest v stored ht hv hsame).apart (ha t.key t.id hin hin') hin'

variable {s : State}

/-- A client concludes from the body what the counts of the job are. -/
theorem Proc.next_counts {p' : Proc} (hk : p.Knows s.store)
    (hn : p.next s.store = some (p', e)) (h : ∀ id, Numbered s id) : p'.Counts s := by
  unfold Proc.next at hn
  split at hn
  case h_4 t rest ht =>
    have hp := hk t rest ht
    unfold Tx.next at hn
    split at hn
    · cases hn
      intro t' rest' v stored _ hv
      cases hv
    · split at hn
      · split at hn <;>
        · cases hn
          exact Proc.counts_of_start rfl s
      · split at hn
        · cases hn
          exact Proc.counts_of_start rfl s
        · split at hn
          · cases hn
            intro t' rest' v stored _ hv
            cases hv
          · next hreads =>
            -- Only the recovery of a lease reads no body.
            cases hn
            intro t' rest' v stored ht' hv _
            simp only [ht, cons.injEq, Task.tx.injEq] at ht'
            obtain ⟨rfl, -⟩ := ht'
            cases t with
            | recoverLease => trivial
            | claim | settleLeased => exact absurd rfl hreads
            | retry => trivial
    · next v hv =>
      simp only [hv] at hp
      split at hn
      · cases hn
        exact Proc.counts_of_start rfl s
      · next b hb =>
        split at hn
        · cases hn
          exact Proc.counts_of_start rfl s
        · next hstale =>
          cases hn
          intro t' rest' _ stored ht' hv' hver
          simp only [ht, cons.injEq, Task.tx.injEq] at ht'
          obtain ⟨rfl, -⟩ := ht'
          cases hv'
          cases t with
          | recoverLease => trivial
          | claim _ id =>
            intro _ hb' d hd hid hep
            cases hb'
            exact (h id).top d hd hid hep b hb
          | settleLeased _ id job =>
            obtain ⟨i, d, hd, heq⟩ := (h id).held job.queue (hp.2 hver)
            refine ⟨i, d, hd, ?_⟩
            rw [← heq b hb]
            simpa [Tx.stale] using hstale
          | retry => trivial
    · split at hn <;>
      · cases hn
        exact Proc.counts_of_start rfl s
  all_goals
    cases hn
    try exact Proc.counts_of_start rfl s

/-! ### What the effects keep -/

theorem State.Apart.refl (s : State) (id : String) : s.Apart s id :=
  ⟨fun _ h => h, fun _ h => h, fun _ _ => rfl, rfl, [], by simp, by simp⟩

/-- The clock and the clients' own steps change no job. -/
theorem State.Apart.clients (s : State) (now : Nat) (procs : List Proc) (id : String) :
    s.Apart { s with now, procs } id :=
  ⟨fun _ h => h, fun _ h => h, fun _ _ => rfl, rfl, [], by simp, by simp⟩

theorem Proc.Counts.clients (h : p.Counts s) (hk : p.Knows s.store) (now : Nat)
    (procs : List Proc) : p.Counts { s with now, procs } :=
  h.apart hk (.refl _) fun _ id _ _ => .clients s now procs id

theorem State.apart_push (s : State) {id id' : String} (job : Job) (hne : id' ≠ id) :
    s.Apart (s.apply (.push id job)) id' where
  leases queue hq := by simpa [State.apply, Store.has_zadd, hne] using hq
  bodies b hb := by simpa [State.apply, Store.fields_hset, hne] using hb
  holder _ _ := rfl
  epochs := by simp [State.apply, hne]
  deliveries := ⟨[], by simp [State.apply], by simp⟩

theorem State.apart_wipe (h : s.store.Single) (key : Key) (ids : List String) (id : String) :
    s.Apart (s.apply (.wipe key ids)) id where
  leases queue hq := ((Store.has_del _ key _ id).mp hq).1
  bodies b hb := by
    rw [State.apply, Store.fields_del, Store.fields_hdel] at hb
    split at hb
    · cases hb
    · exact hb
  holder queue hq := by
    obtain ⟨hq', hne⟩ := (Store.has_del _ key _ id).mp hq
    cases key with
    | scheduled => rfl
    | leased _ => exact if_neg fun hk => hne (h _ _ id hq' hk)
    | parked => rfl
  epochs := rfl
  deliveries := ⟨[], by simp [State.apply], by simp⟩

variable {id : String}

/-- A block leaves the other jobs alone. -/
theorem State.apart_commit (s : State) (t : Tx) (stored : Option Job) (hne : id ≠ t.id) :
    s.Apart (s.commit t stored) id := by
  cases t with
  | recoverLease _ id' =>
    replace hne : id ≠ id' := hne
    exact ⟨fun q hq => by simpa [State.commit, Store.has_zadd, Store.has_zrem, hne] using hq,
      fun b hb => by simpa [State.commit] using hb, fun _ _ => by simp [State.commit, hne], rfl,
      [], by simp [State.commit], by simp⟩
  | claim _ id' =>
    replace hne : id ≠ id' := hne
    cases stored with
    | none => exact .refl s id
    | some =>
      exact ⟨fun q hq => by simpa [State.commit, Store.has_zadd, Store.has_zrem, hne] using hq,
        fun b hb => by simpa [State.commit, Store.fields_hset, hne] using hb,
        fun _ _ => by simp [State.commit, hne], rfl, _, rfl, by simpa using hne.symm⟩
  | settleLeased _ id' _ outcome =>
    replace hne : id ≠ id' := hne
    refine ⟨fun q hq => ?_, fun b hb => ?_, fun _ _ => by simp [State.commit, hne], rfl,
      [], by simp [State.commit], by simp⟩
    · cases outcome <;>
        simpa [State.commit, Outcome.settle, Store.has_zadd, Store.has_zrem, hne] using hq
    · cases outcome <;>
        simpa [State.commit, Outcome.settle, Store.fields_hset, Store.fields_hdel, hne] using hb
  | retry id' =>
    replace hne : id ≠ id' := hne
    cases stored with
    | none => exact .refl s id
    | some =>
      exact ⟨fun q hq => by simpa [State.commit, Store.has_zadd, Store.has_zrem, hne] using hq,
        fun b hb => by simpa [State.commit, Store.fields_hset, hne] using hb, fun _ _ => rfl,
        by simp [State.commit, hne], [], by simp [State.commit], by simp⟩

theorem Outcome.single_settle (o : Outcome) (h : st.Single)
    (hin : st.has (.leased job.queue) id) (began : Nat) : (o.settle st id job began).Single := by
  cases o with
  | delete => exact (h.zrem _ id).hdel _
  | release | fail =>
    exact (h.hset id _).move (k := .leased job.queue) hin _ _

theorem State.single_commit (h : s.store.Single)
    (hin : s.store.has t.key t.id) (stored : Option Job) : (s.commit t stored).store.Single := by
  unfold State.commit
  split
  · exact h.move hin _ _
  · exact (h.hset _ _).move (k := Key.scheduled _) hin _ _
  · exact Outcome.single_settle _ h hin _
  · exact (h.hset _ _).move (k := Key.parked) hin _ _
  · exact h

/-- A settled job is in no leased set. -/
theorem Outcome.free_settle (o : Outcome) (h : st.Single)
    (hin : st.has (.leased job.queue) id) (began : Nat) (queue : String) :
    (o.settle st id job began).has (.leased queue) id = false := by
  cases o with
  | delete => exact h.free_zrem hin _
  | release | fail =>
    exact (h.hset id _).free_move (k := .leased job.queue) hin (by simp) _

/-- A job that was taken from a set by a block is not there any more. -/
theorem State.apart_moved (h : s.store.Single) (hin : s.store.has t.key t.id)
    (stored : Option Job) {k : Key} (hk : s.store.has k id)
    (hk' : (s.commit t stored).store.has k id) : s.Apart (s.commit t stored) id := by
  by_cases hid : id = t.id
  · subst hid
    rw [h k t.key t.id hk hin] at hk'
    cases t with
    | recoverLease queue =>
      exact absurd hk' (Bool.eq_false_iff.mp (h.free_move (k := .leased queue) hin (by simp [Tx.key]) _))
    | claim queue id =>
      cases stored with
      | none => exact .refl s _
      | some =>
        exact absurd hk' (Bool.eq_false_iff.mp ((h.hset id _).free_move (k := .scheduled queue) hin (by simp [Tx.key]) _))
    | settleLeased _ _ job outcome began =>
      exact absurd hk' (Bool.eq_false_iff.mp (Outcome.free_settle outcome h hin began job.queue))
    | retry id =>
      cases stored with
      | none => exact .refl s _
      | some =>
        exact absurd hk' (Bool.eq_false_iff.mp ((h.hset id _).free_move (k := .parked) hin (by simp [Tx.key]) _))
  · exact s.apart_commit t stored hid

/-- The counts of the job a block is about. -/
theorem Numbered.commit (hn : Numbered s t.id) (h : s.store.Single)
    (hin : s.store.has t.key t.id) (hc : t.Counts s stored) :
    Numbered (s.commit t stored) t.id := by
  cases t with
  | recoverLease queue =>
    refine hn.unheld rfl (Nat.le_refl _) (fun q => h.free_move (k := .leased queue) hin (by simp) _)
      fun d hd hid hep b hb => ?_
    exact hn.top d hd hid hep b (by simpa [State.commit] using hb)
  | claim _ id =>
    cases stored with
    | none => exact hn
    | some stored =>
      exact hn.claimed (hc stored rfl) rfl rfl (by simp [State.commit, Tx.id])
        (by simp [State.commit, Tx.id, Store.fields_hset])
  | settleLeased _ id job outcome began =>
    obtain ⟨i, d, hd, hj⟩ := hc
    refine hn.unheld rfl (Nat.le_refl _) (Outcome.free_settle outcome h hin began) fun e he hid hep b hb => ?_
    have hle : e.job.attempts ≤ job.attempts := hj ▸ hd.latest e he hid hep
    cases outcome with
    | delete => simp [State.commit, Outcome.settle, Tx.id, Store.fields_hdel] at hb
    | release | fail =>
      simp only [State.commit, Outcome.settle, Tx.id, Store.fields_zadd, Store.fields_zrem, Store.fields_hset,
        if_true, Option.some.injEq] at hb
      subst hb
      exact hle
  | retry id =>
    cases stored with
    | none => exact hn
    | some =>
      exact hn.anew rfl (by simp [State.commit, Tx.id]) fun q => (h.hset id _).free_move (k := .parked) hin (by simp) _

/-! ### The run -/

/-- What holds in a run whose settlements are current. -/
structure Ordered (s : State) : Prop where
  single : s.store.Single
  knows : ∀ p ∈ s.procs, p.Knows s.store
  named : ∀ p ∈ s.procs, ∀ delivery id job outcome began,
    .tx (.settleLeased delivery id job outcome began) ∈ p.tasks →
      ∃ d, s.deliveries[delivery]? = some d ∧ d.id = id ∧ d.job = job
  numbered : ∀ id, Numbered s id
  counts : ∀ p ∈ s.procs, p.Counts s
  own : ∀ x ∈ s.settled, x.2 = some x.1

theorem ordered_initial (now : Nat) : Ordered { now } where
  single := by simp [Store.Single, Store.has]
  knows := by simp
  named := by simp
  numbered id := ⟨by simp, by simp, by simp, by simp [Store.has]⟩
  counts := by simp
  own := by simp

variable {outcome : Outcome}

/-- A client takes on no settlement it was not called for. -/
theorem Proc.next_settles {p' : Proc} {delivery : Nat} {began : Nat} (hn : p.next st = some (p', e))
    (hm : .tx (.settleLeased delivery id job outcome began) ∈ p'.tasks) :
    .tx (.settleLeased delivery id job outcome began) ∈ p.tasks := by
  unfold Proc.next at hn
  split at hn
  · cases hn
  · next ht =>
    cases hn
    rw [ht]
    simpa [Proc.pass] using hm
  · next ht =>
    cases hn
    rw [ht]
    simpa [Proc.pass, -map_take] using hm
  · next t rest ht =>
    have hrest : ∀ {q : Proc}, q.tasks = rest → p' = q → Task.tx (.settleLeased delivery id job outcome began) ∈ p.tasks := by
      rintro q hq rfl
      rw [ht]
      rw [hq] at hm
      exact mem_cons_of_mem _ hm
    have hsame : p'.tasks = p.tasks → Task.tx (.settleLeased delivery id job outcome began) ∈ p.tasks := by
      intro he
      rwa [he] at hm
    have hnone : p'.tasks ≠ [] := by
      intro he
      rw [he] at hm
      cases hm
    unfold Tx.next at hn
    split at hn
    · cases hn
      exact hsame rfl
    · split at hn
      · split at hn <;> cases hn
        · exact hrest (q := p.pass rest) rfl rfl
        · exact absurd rfl hnone
      · split at hn
        · cases hn
          exact hrest (q := p.pass rest) rfl rfl
        · split at hn <;>
          · cases hn
            exact hsame rfl
    · split at hn
      · cases hn
        exact absurd rfl hnone
      · split at hn <;> cases hn
        · exact absurd rfl hnone
        · exact hsame rfl
    · split at hn <;> cases hn
      · exact hrest (q := p.pass rest) rfl rfl
      · exact hsame rfl
  · next ht =>
    cases hn
    rw [ht]
    exact mem_cons_of_mem _ hm
  · next ht =>
    cases hn
    rw [ht]
    simp only [Proc.pass] at hm
    split at hm
    · exact mem_cons_of_mem _ hm
    · simpa using hm
  · next ht =>
    cases hn
    rw [ht]
    exact mem_cons_of_mem _ hm

/-- A settlement that takes effect is that of the delivery that holds the job. -/
theorem Ordered.settles (h : Ordered s) (hp : s.procs[i]? = some p)
    {delivery : Nat} {began : Nat}
    (hs : p.Sends s.store (.commit (.settleLeased delivery id job outcome began) stored))
    (hok : current s (.go i)) : s.holder id = some delivery := by
  have hmem := List.mem_of_getElem? hp
  obtain ⟨rest, v, ht, hv, hver⟩ := hs
  obtain ⟨j, d, hd, _⟩ := h.counts p hmem _ rest v stored ht hv hver
  obtain ⟨e, he, heid, hejob⟩ := h.named p hmem delivery id job outcome began (by rw [ht]; exact mem_cons_self)
  simp only [current, hp, Option.all_some, ht, head?_cons, hv, currentTask, he, decide_eq_true_eq] at hok
  have hepoch : d.epoch = e.epoch := by rw [hd.epoch, hok]
  -- Of two deliveries since the last retry the later has the higher number.
  have hj : j = delivery := by
    rcases Nat.lt_trichotomy j delivery with hlt | heq | hgt
    · have := (h.numbered id).rising j delivery d e hlt hd.made he hd.same heid hepoch
      rw [hejob] at this
      omega
    · exact heq
    · have := (h.numbered id).rising delivery j e d hgt he hd.made heid hd.same hepoch.symm
      rw [hejob] at this
      omega
  rw [hd.holder, hj]

/-- Everything but the clients' own steps. -/
theorem Ordered.effect (h : Ordered s) (hp : s.procs[i]? = some p)
    (hs : p.Sends s.store e) (hok : current s (.go i)) :
    (s.apply e).store.Single ∧ (∀ id, Numbered (s.apply e) id) ∧ (∀ x ∈ (s.apply e).settled, x.2 = some x.1) ∧
      (∃ more, (s.apply e).deliveries = s.deliveries ++ more) ∧
      ∀ k id, s.store.has k id → (s.apply e).store.has k id → s.Apart (s.apply e) id := by
  have hmem := List.mem_of_getElem? hp
  cases e with
  | quiet => exact ⟨h.single, h.numbered, h.own, ⟨[], by simp [State.apply]⟩, fun _ id _ _ => .refl s id⟩
  | push id job =>
    obtain ⟨rest, ht⟩ := hs
    simp only [current, hp, Option.all_some, ht, head?_cons, currentTask, all_eq_true,
      decide_eq_true_eq] at hok
    have hfree : ∀ k, s.store.has k id = false := by
      intro k
      rw [Bool.eq_false_iff, Ne, Store.has_iff]
      rintro ⟨m, hm, -, hid⟩
      exact hok m hm hid
    refine ⟨(h.single.hset id job).zadd hfree _ _, fun id' => ?_, h.own, ⟨[], by simp [State.apply]⟩,
      fun k id' hk _ => s.apart_push job ?_⟩
    · by_cases hid : id' = id
      · subst hid
        refine (h.numbered id').anew rfl (by simp [State.apply]) fun queue => ?_
        rw [Bool.eq_false_iff, Ne, State.apply, Store.has_zadd]
        simp [hfree]
      · exact (h.numbered id').apart (s.apart_push job hid)
    · rintro rfl
      rw [hfree] at hk
      cases hk
  | wipe key ids =>
    exact ⟨(h.single.hdel ids).del key, fun id => (h.numbered id).apart (State.apart_wipe h.single key ids id),
      h.own, ⟨[], by simp [State.apply]⟩, fun _ id _ _ => State.apart_wipe h.single key ids id⟩
  | commit t stored =>
    have hin := (h.knows p hmem).found hs
    refine ⟨State.single_commit h.single hin stored, fun id => ?_, ?_, ?_, fun k id hk hk' =>
      State.apart_moved h.single hin stored hk hk'⟩
    · by_cases hid : id = t.id
      · obtain ⟨rest, v, ht, hv, hver⟩ := hs
        rw [hid]
        exact (h.numbered t.id).commit h.single hin (h.counts p hmem t rest v stored ht hv hver)
      · exact (h.numbered id).apart (s.apart_commit t stored hid)
    · cases t with
      | settleLeased =>
        exact forall_concat h.own (h.settles hp hs hok)
      | recoverLease => exact h.own
      | claim | retry => cases stored <;> exact h.own
    · cases t with
      | claim =>
        cases stored with
        | none => exact ⟨[], by simp [State.apply, State.commit]⟩
        | some => exact ⟨_, rfl⟩
      | recoverLease | settleLeased =>
        exact ⟨[], by simp [State.apply, State.commit]⟩
      | retry => cases stored <;> exact ⟨[], by simp [State.apply, State.commit]⟩

theorem Ordered.go (h : Ordered s) (hok : current s (.go i))
    (hu : step s (.go i) = some u) : Ordered u := by
  obtain ⟨p, p', e, hp, hn, rfl⟩ := step_go hu
  have hmem := List.mem_of_getElem? hp
  have hk := h.knows p hmem
  have hs := Proc.next_sends hn
  obtain ⟨hsingle, hnumbered, hown, ⟨_, hmore⟩, hapart⟩ := h.effect hp hs hok
  have hk' := Proc.next_knows hk hn
  have hnamed : ∀ {delivery id job outcome began}, Task.tx (.settleLeased delivery id job outcome began) ∈ p'.tasks →
      ∃ d, s.deliveries[delivery]? = some d ∧ d.id = id ∧ d.job = job := fun hm =>
    h.named p hmem _ _ _ _ _ (Proc.next_settles hn hm)
  have hknows : ∀ q ∈ s.procs.set i p', q.Knows s.store := forall_set h.knows hk'
  refine ⟨hsingle, fun q hq => (hknows q hq).since (s.since_apply e), fun q hq delivery id job outcome began hm => ?_,
    fun id => ?_, fun q hq => ?_, hown⟩
  · obtain ⟨d, hd, hid, hjob⟩ := forall_set h.named (fun _ _ _ _ _ => hnamed) q hq delivery id job outcome began hm
    refine ⟨d, ?_, hid, hjob⟩
    rw [hmore, List.getElem?_append_left (List.getElem?_eq_some_iff.mp hd).1, hd]
  · exact (hnumbered id).apart (.clients (s.apply e) _ _ id)
  · have hcounts := forall_set h.counts (Proc.next_counts hk hn h.numbered) q hq
    exact (hcounts.apart (hknows q hq) (s.since_apply e) hapart).clients ((hknows q hq).since (s.since_apply e)) _ _

theorem ordered_step {a : Action} (h : Ordered s) (hok : current s a)
    (hu : step s a = some u) : Ordered u := by
  cases a with
  | tick =>
    cases hu
    exact ⟨h.single, h.knows, h.named, fun id => (h.numbered id).apart (.clients s _ _ id),
      fun p hp => (h.counts p hp).clients (h.knows p hp) _ _, h.own⟩
  | call c =>
    cases hu
    refine ⟨h.single, forall_concat h.knows (Proc.knows_of_start rfl _),
      forall_concat h.named fun delivery id job outcome began hm => ?_,
      fun id => (h.numbered id).apart (.clients s _ _ id),
      forall_concat (fun p hp => (h.counts p hp).clients (h.knows p hp) _ _) (Proc.counts_of_start rfl _), h.own⟩
    cases c with
    | settle =>
      simp only [Call.tasks] at hm
      split at hm
      · cases hm
      · next d hd =>
        simp only [mem_singleton, Task.tx.injEq, Tx.settleLeased.injEq] at hm
        obtain ⟨rfl, rfl, rfl, -⟩ := hm
        exact ⟨d, hd, rfl, rfl⟩
    | push | pop | retry | clear => simp [Call.tasks] at hm
  | go => exact h.go hok hu

/-- **A delivery settles itself only**: in a run whose settlements are current, every settlement
that took effect is that of the delivery that held the job. -/
theorem settles_own_delivery {now : Nat} {s : State} (h : Reach step current { now } s) {delivery : Nat}
    {holder : Option Nat} (hx : (delivery, holder) ∈ s.settled) : holder = some delivery := by
  have ho : Ordered s := h.invariant (ordered_initial now) fun _ _ _ ht hok hu => ordered_step ht hok hu
  exact ho.own _ hx

/-- The first worker outlives its lease and cannot settle the job the second one has. -/
theorem settles_own_delivery_late : ∃ s : State, (1, some 1) ∈ s.settled ∧ ∀ x ∈ s.settled, x.2 = some x.1 := by
  obtain ⟨s, hrun, hx⟩ : ∃ s : State, Reach step current {} s ∧ (1, some 1) ∈ s.settled :=
    Run.exists_reach
      ([.call (.push "x" { queue := "", runAt := 0 }), .go 0, .call (.pop "" 1 10)] ++ replicate 6 (.go 1) ++
        [.tick 11, .call (.pop "" 1 10)] ++ replicate 9 (.go 2) ++ [.call (.settle 0 .delete)] ++
        replicate 3 (.go 3) ++ [.call (.settle 1 .delete)] ++ replicate 4 (.go 4)) (by decide +kernel)
  exact ⟨s, hx, fun x hx => settles_own_delivery hrun hx⟩

/-- **A stale delivery settles a newer one.**  The first worker outlives its lease, the second one
parks the job, and after a retry the third one's claim has the number of the first: the first
worker deletes the job under it. -/
theorem retried_job_settled_by_stale : ∃ s : State, Reach step (fun _ _ => true) {} s ∧
    (0, some 2) ∈ s.settled :=
  Run.exists_reach
    ([.call (.push "x" { queue := "", runAt := 0 }), .go 0, .call (.pop "" 1 10)] ++ replicate 6 (.go 1) ++
      [.tick 11, .call (.pop "" 1 10)] ++ replicate 9 (.go 2) ++
      [.call (.settle 1 (.fail 1 "no"))] ++ replicate 4 (.go 3) ++
      [.call (.retry "x")] ++ replicate 4 (.go 4) ++
      [.call (.pop "" 1 10)] ++ replicate 6 (.go 5) ++
      [.call (.settle 0 .delete)] ++ replicate 4 (.go 6)) (by decide +kernel)

end Hesape.Queue.Redis
