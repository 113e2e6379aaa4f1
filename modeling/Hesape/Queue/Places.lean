import Hesape.Queue.Redis

/-!
# Every job in its place

The queue's discipline is that a job's id is in one of the sets and its body in the hash.  A
transaction keeps it whatever the other clients do, since it takes the id from the set it watches
and puts it in another one in the same block.  Three operations do not: a push writes over whatever
is stored for the id; `Clear` reads a set and later drops it as it is by then, with the bodies it
read; and a claim reads the body after it found the id, when another worker may have claimed,
run and deleted the job.  `careful` is the condition that they meet nobody.

Under it every job stays whole (`Placed.whole`), and the body is there for each claim that has found
its id (`Placed.readable`), so that no `Pop` fails for want of one (`jobs_in_place`).
-/

namespace Hesape.Queue.Redis

open Hesape.Redis (Store)
open Hesape.Run (Reach forall_concat)
open List

/-- The client has found the id of a claim and is about to read the body. -/
def Proc.reads (p : Proc) (id : String) : Bool :=
  match p.tasks, p.point with
  | .tx (.claim _ id' _ _) :: _, .scored _ => id' = id
  | _, _ => false

def State.reading (s : State) (id : String) : Bool := s.procs.any (·.reads id)

/-- A pushed id is in no set; when `Clear` drops a set, its members are the ids that were read, the
others among these have no body, and no claim is about to read one of the bodies; and no claim is
about to read the body of a job that is deleted. -/
def carefulTask (s : State) : Task → Point → Bool
  | .push id _, _ => s.store.members.all (·.id ≠ id)
  | .wipe key ids, _ =>
    s.store.members.all (fun m => m.key ≠ key || m.id ∈ ids) &&
      ids.all fun id => (s.store.has key id || (s.store.fields id).isNone) && !s.reading id
  | .tx (.settleLeased _ id _ .delete _), .loaded _ _ => !s.reading id
  | _, _ => true

def careful (s : State) : Action → Bool
  | .go i => s.procs[i]?.all fun p => p.tasks.head?.all fun task => carefulTask s task p.point
  | _ => true

/-- What holds in a careful run. -/
structure Placed (s : State) : Prop where
  whole : s.store.Whole
  knows : ∀ p ∈ s.procs, p.Knows s.store
  readable : ∀ id, s.reading id = true → (s.store.fields id).isSome = true
  clean : ∀ p ∈ s.procs, ∀ queue id now lease, p.error ≠ some (.missing (.claim queue id now lease))

theorem placed_initial (now : Nat) : Placed { now } where
  whole := ⟨by simp [Store.Single, Store.has], by simp [Store.has], by simp⟩
  knows := by simp
  readable := by simp [State.reading]
  clean := by simp

variable {p : Proc} {st : Store Key Job} {e : Effect} {id : String} {s : State} {i : Nat}

theorem Proc.reads_of_start (h : p.point = .start) (id : String) : p.reads id = false := by
  unfold Proc.reads
  split
  · next hp =>
    rw [h] at hp
    cases hp
  · rfl

/-- A client that begins to read a body has just found the id. -/
theorem Proc.next_reads {p' : Proc}
    (hn : p.next st = some (p', e)) (hr : p'.reads id) :
    e = .quiet ∧ ∃ key, st.has key id := by
  have hstart : p'.point ≠ .start := by
    intro h
    rw [Proc.reads_of_start h] at hr
    cases hr
  unfold Proc.next at hn
  split at hn
  case h_4 t rest ht =>
    have hn := Option.some.inj hn
    unfold Tx.next at hn
    split at hn
    · cases hn
      simp [Proc.reads] at hr
    · split at hn
      · split at hn <;>
        · cases hn
          exact absurd rfl hstart
      · next score hscore =>
        split at hn
        · cases hn
          exact absurd rfl hstart
        · split at hn <;> cases hn
          · refine ⟨rfl, t.key, ?_⟩
            have hin := Store.zscore_isSome hscore
            have hid : t.id = id := by
              unfold Proc.reads at hr
              split at hr
              · next ht' _ =>
                simp only [ht, cons.injEq, Task.tx.injEq] at ht'
                rw [ht'.1]
                simpa [Tx.id] using hr
              · cases hr
            rwa [hid] at hin
          · simp [Proc.reads] at hr
    · split at hn
      · cases hn
        exact absurd rfl hstart
      · split at hn <;> cases hn
        · exact absurd rfl hstart
        · simp [Proc.reads] at hr
    · split at hn <;>
      · cases hn
        exact absurd rfl hstart
  all_goals
    cases hn
    try exact absurd rfl hstart

/-- A claim fails for want of a body only when its client was about to read it and it was not
there. -/
theorem Proc.next_missing {p' : Proc} {t : Tx}
    (hn : p.next st = some (p', e)) (he : p'.error = some (.missing t)) :
    p.error = some (.missing t) ∨
      ∃ rest v, p.tasks = .tx t :: rest ∧ p.point = .scored v ∧ st.fields t.id = none := by
  unfold Proc.next at hn
  split at hn
  case h_4 t' rest ht =>
    have hn := Option.some.inj hn
    unfold Tx.next at hn
    split at hn
    · cases hn
      exact .inl he
    · split at hn
      · split at hn
        · cases hn
          exact .inl he
        · next f hf =>
          -- An id that is not in the set is another failure.
          cases hn
          cases t' <;> simp_all [Tx.moved, Proc.abort]
      · split at hn
        · cases hn
          exact .inl he
        · split at hn <;>
          · cases hn
            exact .inl he
    · next v hv =>
      split at hn
      · next hnone =>
        cases hn
        have : t' = t := by simpa [Proc.abort] using he
        subst this
        exact .inr ⟨rest, v, ht, hv, hnone⟩
      · split at hn
        · cases hn
          simp [Proc.abort] at he
        · cases hn
          exact .inl he
    · split at hn <;>
      · cases hn
        exact .inl he
  all_goals
    cases hn
    try exact .inl he

/-! ### What the effects keep -/

theorem Outcome.whole_settle (o : Outcome) (h : st.Whole) {job : Job}
    (hin : st.has (.leased job.queue) id) (began : Nat) : (o.settle st id job began).Whole := by
  cases o with
  | delete => exact h.remove hin
  | release =>
    exact (h.hset hin _).move (k := .leased job.queue) hin _ _
  | fail => exact (h.hset hin _).move (k := .leased job.queue) hin _ _

/-- A block takes its id from one set to another, or away with its body. -/
theorem State.whole_commit (h : s.store.Whole) {t : Tx}
    (hin : s.store.has t.key t.id) (stored : Option Job) : (s.commit t stored).store.Whole := by
  unfold State.commit
  split
  · exact h.move hin _ _
  · exact (h.hset hin _).move (k := Key.scheduled _) hin _ _
  · exact Outcome.whole_settle _ h hin _
  · exact (h.hset hin _).move (k := Key.parked) hin _ _
  · exact h

theorem State.whole_apply (h : s.store.Whole)
    (hp : s.procs[i]? = some p) (hk : p.Knows s.store) (hs : p.Sends s.store e)
    (hok : careful s (.go i)) : (s.apply e).store.Whole := by
  cases e with
  | quiet => exact h
  | push _ job =>
    obtain ⟨rest, ht⟩ := hs
    simp only [careful, hp, Option.all_some, ht, head?_cons, carefulTask, all_eq_true,
      decide_eq_true_eq] at hok
    refine h.add (fun k => ?_) job _ _
    rw [Bool.eq_false_iff, Ne, Store.has_iff]
    rintro ⟨m, hm, -, hid⟩
    exact hok m hm hid
  | wipe =>
    obtain ⟨rest, ht⟩ := hs
    simp only [careful, hp, Option.all_some, ht, head?_cons, carefulTask, Bool.and_eq_true,
      all_eq_true, Bool.or_eq_true, decide_eq_true_eq, Option.isNone_iff_eq_none] at hok
    refine h.wipe (fun id hid => ?_) fun id hid => (hok.2 id hid).1
    obtain ⟨m, hm, hkey, rfl⟩ := Store.has_iff.mp hid
    exact (hok.1 m hm).resolve_left (fun hne => hne hkey)
  | commit t stored => exact State.whole_commit h (hk.found hs) stored

/-- No effect takes away a body that a claim is about to read. -/
theorem State.readable_apply (hp : s.procs[i]? = some p)
    (hs : p.Sends s.store e) (hok : careful s (.go i))
    (hr : s.reading id) (hb : (s.store.fields id).isSome) :
    ((s.apply e).store.fields id).isSome := by
  have hset : ∀ (id' : String) (job : Job), ((s.store.hset id' job).fields id).isSome := by
    intro id' job
    rw [Store.fields_hset]
    split
    · rfl
    · exact hb
  cases e with
  | quiet => exact hb
  | push id' job =>
    rw [State.apply, Store.fields_zadd]
    exact hset id' job
  | wipe =>
    obtain ⟨rest, ht⟩ := hs
    simp only [careful, hp, Option.all_some, ht, head?_cons, carefulTask, Bool.and_eq_true,
      all_eq_true] at hok
    rw [State.apply, Store.fields_del, Store.fields_hdel, if_neg, hb]
    intro hid
    simpa [hr] using (hok.2 id hid).2
  | commit t stored =>
    obtain ⟨rest, v, ht, hv, -⟩ := hs
    cases t with
    | recoverLease => simpa [State.apply, State.commit] using hb
    | claim | retry =>
      cases stored with
      | none => exact hb
      | some => simpa [State.apply, State.commit] using hset _ _
    | settleLeased _ _ _ outcome =>
      cases outcome with
      | delete =>
        simp only [careful, hp, Option.all_some, ht, head?_cons, hv, carefulTask,
          Bool.not_eq_true'] at hok
        rw [State.apply, State.commit, Outcome.settle, Store.fields_hdel, Store.fields_zrem, if_neg, hb]
        rw [mem_singleton]
        rintro rfl
        rw [hr] at hok
        cases hok
      | release =>
        simpa [State.apply, State.commit, Outcome.settle] using hset _ _
      | fail => simpa [State.apply, State.commit, Outcome.settle] using hset _ _

theorem Placed.go {u : State} (h : Placed s) (hok : careful s (.go i))
    (hu : step s (.go i) = some u) : Placed u := by
  obtain ⟨p, _, e, hp, hn, rfl⟩ := step_go hu
  have hmem := mem_of_getElem? hp
  have hk := h.knows p hmem
  have hs := Proc.next_sends hn
  refine ⟨State.whole_apply h.whole hp hk hs hok, fun q hq => ?_, fun id hr => ?_, fun q hq => ?_⟩
  · refine Proc.Knows.since ?_ (s.since_apply e)
    rcases mem_or_eq_of_mem_set hq with hq | rfl
    · exact h.knows q hq
    · exact Proc.next_knows hk hn
  · obtain ⟨q, hq, hqr⟩ := any_eq_true.mp hr
    rcases mem_or_eq_of_mem_set hq with hq | rfl
    · have hr : s.reading id := any_eq_true.mpr ⟨q, hq, hqr⟩
      exact State.readable_apply hp hs hok hr (h.readable id hr)
    · obtain ⟨rfl, key, hkey⟩ := Proc.next_reads hn hqr
      exact h.whole.bodies key id hkey
  · rcases mem_or_eq_of_mem_set hq with hq | rfl
    · exact h.clean q hq
    · intro queue id now lease he
      rcases Proc.next_missing hn he with he | ⟨_, v, ht, hv, hnone⟩
      · exact h.clean p hmem queue id now lease he
      · have hr : s.reading id :=
          any_eq_true.mpr ⟨p, hmem, by simp [Proc.reads, ht, hv]⟩
        have hb := h.readable id hr
        rw [show s.store.fields id = none from hnone] at hb
        cases hb

theorem placed_step {u : State} {a : Action} (h : Placed s) (hok : careful s a)
    (hu : step s a = some u) : Placed u := by
  cases a with
  | tick =>
    cases hu
    exact ⟨h.whole, h.knows, h.readable, h.clean⟩
  | call =>
    cases hu
    refine ⟨h.whole, forall_concat h.knows (Proc.knows_of_start rfl _), fun id hr => ?_, forall_concat h.clean nofun⟩
    obtain ⟨p, hp, hr⟩ := any_eq_true.mp hr
    rcases (mem_append.mp hp).imp_right mem_singleton.mp with hp | rfl
    · exact h.readable id (any_eq_true.mpr ⟨p, hp, hr⟩)
    · rw [Proc.reads_of_start rfl] at hr
      cases hr
  | go => exact h.go hok hu

/-- **In a careful run every job is in its place**: its id is in one set and has its body, every
body's id is in a set, and no `Pop` fails for want of a body. -/
theorem jobs_in_place {now : Nat} {s : State} (h : Reach step careful { now } s) :
    (∀ k k' id, s.store.has k id = true → s.store.has k' id = true → k = k') ∧
    (∀ k id, s.store.has k id = true → (s.store.fields id).isSome = true) ∧
    (∀ id, (s.store.fields id).isSome = true → ∃ k, s.store.has k id = true) ∧
    ∀ p ∈ s.procs, ∀ queue id now lease, p.error ≠ some (.missing (.claim queue id now lease)) := by
  have hp : Placed s := h.invariant (placed_initial now) fun _ _ _ ht hok hu => placed_step ht hok hu
  exact ⟨hp.whole.single, hp.whole.bodies, hp.whole.placed, hp.clean⟩

/-- A job that is released and taken again is in the leased set, and there only. -/
theorem jobs_in_place_released : ∃ s : State, s.store.has (.leased "default") "x" = true ∧
    (s.store.fields "x").isSome = true ∧ ∀ k, s.store.has k "x" = true → k = .leased "default" := by
  obtain ⟨s, hrun, hx⟩ : ∃ s : State, Reach step careful {} s ∧ s.store.has (.leased "default") "x" :=
    Run.exists_reach
      ([.call (.push "x" { queue := "", runAt := 0 }), .go 0, .call (.pop "" 1 10)] ++ replicate 6 (.go 1) ++
        [.call (.settle 0 (.release 5 1 "no"))] ++ replicate 4 (.go 2) ++
        [.tick 5, .call (.pop "" 1 10)] ++ replicate 6 (.go 3)) (by decide +kernel)
  obtain ⟨hsingle, hbodies, -⟩ := jobs_in_place hrun
  exact ⟨s, hx, hbodies _ _ hx, fun k hk => hsingle k _ "x" hk hx⟩

/-! ### Where it fails -/

/-- **A job is forgotten, and a `Pop` fails.**  A job pushed after `Clear` has read the set goes
with the set and leaves its body; and a worker that has found a job reads its body after another
one has claimed, run and deleted it. -/
theorem clear_forgets_job :
    (∃ s : State, Reach step (fun _ _ => true) {} s ∧ (s.store.fields "y").isSome = true ∧
      ∀ k, s.store.has k "y" = false) ∧
    ∃ s : State, Reach step (fun _ _ => true) {} s ∧
      ∃ p ∈ s.procs, p.error = some (.missing (.claim "default" "x" 0 10)) := by
  constructor
  · obtain ⟨s, hrun, hbody, hnone⟩ : ∃ s : State, Reach step (fun _ _ => true) {} s ∧
        (s.store.fields "y").isSome ∧ ∀ m ∈ s.store.members, m.id ≠ "y" :=
      Run.exists_reach
        [.call (.push "x" { queue := "", runAt := 0 }), .go 0, .call (.clear ""), .go 1,
          .call (.push "y" { queue := "", runAt := 0 }), .go 2, .go 1] (by decide +kernel)
    refine ⟨s, hrun, hbody, fun k => ?_⟩
    rw [Bool.eq_false_iff, Ne, Store.has_iff]
    rintro ⟨m, hm, -, hid⟩
    exact hnone m hm hid
  · exact Run.exists_reach
      ([.call (.push "x" { queue := "", runAt := 0 }), .go 0, .call (.pop "" 1 10), .call (.pop "" 1 10)] ++
        replicate 4 (.go 1) ++ replicate 6 (.go 2) ++ [.call (.settle 0 .delete)] ++
        replicate 4 (.go 3) ++ [.go 1]) (by decide +kernel)

end Hesape.Queue.Redis
