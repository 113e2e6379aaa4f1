import Hesape.Redis.Store
import Hesape.Run.Reach

/-!
# The Redis queue

A job's body is in one hash, and its id in one of three kinds of sorted set: the scheduled and the
leased set of its queue, and the parked set all queues share.  Every operation is a list of
commands sent one after the other by its client, while the commands of the other clients go on; a
`MULTI`/`EXEC` block is one command.  `Proc` is a client in the middle of a call, `Proc.next` is
the command it sends next, and a run of the system is any interleaving of such commands.

The moves between sets are optimistic transactions (`Tx`): the client watches one set, looks for
the id in it, reads the body, and sends the block, which is executed only if the watched set is the
one it was.  `Clear` alone watches nothing.

Times are in milliseconds, the unit of the scores.  Next to what Redis holds, the state remembers
what the properties speak of: the deliveries made so far, the one that holds each job, how often a
job was put in line anew, and the settlements that took effect.
-/

namespace Hesape.Queue.Redis

open Hesape.Redis (Store)

/-- The keys of the sorted sets. -/
inductive Key
  | scheduled (queue : String)
  | leased (queue : String)
  | parked
  deriving DecidableEq

/-- What the operations read and write of a job's body. -/
structure Job where
  queue : String
  attempts : Nat := 0
  exceptions : Nat := 0
  lastError : String := ""
  runAt : Nat
  deriving DecidableEq

/-- What `DeleteJob`, `ReleaseJob` and `FailJob` are called with, beyond the job: the worker has
counted an exception on it before. -/
inductive Outcome
  | delete
  | release (delay : Nat) (exceptions : Nat) (lastError : String)
  | fail (exceptions : Nat) (cause : String)
  deriving DecidableEq

/-- The optimistic transactions.  `settle` is that of a delivery, given by its number, with the job
value of its claim and the time the call began. -/
inductive Tx
  | recoverLease (queue id : String) (now : Nat)
  | claim (queue id : String) (now lease : Nat)
  | settleLeased (delivery : Nat) (id : String) (job : Job) (outcome : Outcome) (began : Nat)
  | retry (id : String)
  deriving DecidableEq

namespace Tx

/-- The set the transaction watches, and takes the id from. -/
def key : Tx → Key
  | .recoverLease queue _ _ => .leased queue
  | .claim queue _ _ _ => .scheduled queue
  | .settleLeased _ _ job _ _ => .leased job.queue
  | .retry _ => .parked

def id : Tx → String
  | .recoverLease _ id _ => id
  | .claim _ id _ _ => id
  | .settleLeased _ id _ _ _ => id
  | .retry id => id

/-- The score is of a time to come, so the id is passed over. -/
def early (score : Nat) : Tx → Bool
  | .recoverLease _ _ now => now < score
  | .claim _ _ now _ => now < score
  | .settleLeased .. => false
  | .retry _ => false

/-- The transaction reads the body before it writes. -/
def reads : Tx → Bool
  | .recoverLease .. => false
  | _ => true

/-- The stored body is of another attempt than the delivery. -/
def stale (stored : Job) : Tx → Bool
  | .settleLeased _ _ job _ _ => stored.attempts ≠ job.attempts
  | _ => false

end Tx

/-- Why a call gives up. -/
inductive Failure
  | notLeased
  | notParked
  | missing (t : Tx)
  | stale (stored : Nat)
  deriving DecidableEq

/-- What is made of an id that is not in the watched set: `Pop` goes on to the next one. -/
def Tx.moved : Tx → Option Failure
  | .settleLeased .. => some .notLeased
  | .retry _ => some .notParked
  | _ => none

/-- What a call has still to do. -/
inductive Task
  | recoverExpiredLeases (queue : String) (now : Nat)
  | due (queue : String) (now n lease : Nat)
  | tx (t : Tx)
  | push (id : String) (job : Job)
  | list (key : Key)
  | wipe (key : Key) (ids : List String)

/-- How far the transaction at the head of the tasks is: nothing sent, watching, the id found in
the watched set, the body read.  The number is the watched set's count at the `WATCH`. -/
inductive Point
  | start
  | watched (version : Nat)
  | scored (version : Nat)
  | loaded (version : Nat) (stored : Option Job)

/-- A client in the middle of a call. -/
structure Proc where
  tasks : List Task
  point : Point := .start
  error : Option Failure := none

/-- The commands that change what Redis holds. -/
inductive Effect
  | quiet
  | push (id : String) (job : Job)
  | wipe (key : Key) (ids : List String)
  | commit (t : Tx) (stored : Option Job)

def Proc.pass (p : Proc) (rest : List Task) : Proc := { p with tasks := rest, point := .start }

def Proc.abort (f : Failure) : Proc := { tasks := [], error := some f }

/-- The next command of a transaction. -/
def Tx.next (t : Tx) (st : Store Key Job) (p : Proc) (rest : List Task) : Proc × Effect :=
  match p.point with
  | .start => ({ p with point := .watched (st.versions t.key) }, .quiet)
  | .watched v =>
    match st.zscore t.key t.id with
    | none =>
      match t.moved with
      | none => (p.pass rest, .quiet)
      | some f => (Proc.abort f, .quiet)
    | some score =>
      if t.early score then (p.pass rest, .quiet)
      else if t.reads then ({ p with point := .scored v }, .quiet)
      else ({ p with point := .loaded v none }, .quiet)
  | .scored v =>
    match st.fields t.id with
    | none => (Proc.abort (.missing t), .quiet)
    | some stored =>
      if t.stale stored then (Proc.abort (.stale stored.attempts), .quiet)
      else ({ p with point := .loaded v (some stored) }, .quiet)
  | .loaded v stored =>
    -- A watched set that has changed fails the block, and `transaction` begins anew.
    if st.versions t.key = v then (p.pass rest, .commit t stored)
    else ({ p with point := .start }, .quiet)

/-- The next command of a call. -/
def Proc.next (p : Proc) (st : Store Key Job) : Option (Proc × Effect) :=
  match p.tasks with
  | [] => none
  | .recoverExpiredLeases queue now :: rest =>
    some (p.pass ((st.zrangebyscore (.leased queue) now).map (fun id => .tx (.recoverLease queue id now)) ++ rest),
      .quiet)
  | .due queue now n lease :: rest =>
    some (p.pass (((st.zrangebyscore (.scheduled queue) now).take n).map
      (fun id => .tx (.claim queue id now lease)) ++ rest), .quiet)
  | .tx t :: rest => some (t.next st p rest)
  | .push id job :: rest => some (p.pass rest, .push id job)
  | .list key :: rest =>
    let ids := st.zrange key
    some (p.pass (if ids = [] then rest else .wipe key ids :: rest), .quiet)
  | .wipe key ids :: rest => some (p.pass rest, .wipe key ids)

/-- A claim that was made: the job value handed to the worker, and how often the job had been put
in line by then. -/
structure Delivery where
  id : String
  job : Job
  epoch : Nat

structure State where
  now : Nat := 0
  store : Store Key Job := {}
  procs : List Proc := []
  deliveries : List Delivery := []
  /-- The delivery whose claim the job's lease is of. -/
  holder : String → Option Nat := fun _ => none
  /-- How often the job was pushed or retried. -/
  epochs : String → Nat := fun _ => 0
  /-- The settlements that took effect, each with the delivery that held the job then. -/
  settled : List (Nat × Option Nat) := []

/-! ### What the transactions write -/

/-- The block of a settlement. -/
def Outcome.settle (st : Store Key Job) (id : String) (job : Job) (began : Nat) : Outcome → Store Key Job
  | .delete => (st.zrem (.leased job.queue) id).hdel [id]
  | .release delay exceptions lastError =>
    ((st.hset id { job with exceptions, lastError, runAt := began + delay }).zrem (.leased job.queue) id).zadd
      (.scheduled job.queue) id (began + delay)
  | .fail exceptions cause =>
    ((st.hset id { job with exceptions, lastError := cause }).zrem (.leased job.queue) id).zadd .parked id began

def Job.retried (job : Job) (now : Nat) : Job :=
  { job with attempts := 0, exceptions := 0, lastError := "", runAt := now }

/-- The blocks of the transactions.  A claim and `Retry` have always read a body by then. -/
def State.commit (s : State) (t : Tx) (stored : Option Job) : State :=
  match t, stored with
  | .recoverLease queue id now, _ =>
    { s with
      store := (s.store.zrem (.leased queue) id).zadd (.scheduled queue) id now
      holder := Function.update s.holder id none }
  | .claim queue id now lease, some stored =>
    let job := { stored with attempts := stored.attempts + 1 }
    { s with
      store := ((s.store.hset id job).zrem (.scheduled queue) id).zadd (.leased queue) id (now + lease)
      deliveries := s.deliveries ++ [{ id, job, epoch := s.epochs id }]
      holder := Function.update s.holder id (some s.deliveries.length) }
  | .settleLeased delivery id job outcome began, _ =>
    { s with
      store := outcome.settle s.store id job began
      holder := Function.update s.holder id none
      settled := s.settled ++ [(delivery, s.holder id)] }
  | .retry id, some stored =>
    { s with
      store := ((s.store.hset id (stored.retried s.now)).zrem .parked id).zadd (.scheduled stored.queue) id s.now
      epochs := Function.update s.epochs id (s.epochs id + 1) }
  | _, none => s

def State.apply (s : State) : Effect → State
  | .quiet => s
  | .push id job =>
    { s with
      store := (s.store.hset id job).zadd (.scheduled job.queue) id job.runAt
      epochs := Function.update s.epochs id (s.epochs id + 1) }
  | .wipe key ids =>
    { s with
      store := (s.store.hdel ids).del key
      holder := fun id => match key with
        | .leased _ => if s.store.has key id then none else s.holder id
        | _ => s.holder id }
  | .commit t stored => s.commit t stored

/-! ### The system -/

inductive Call
  | push (id : String) (job : Job)
  | pop (queue : String) (n lease : Nat)
  | settle (delivery : Nat) (outcome : Outcome)
  | retry (id : String)
  | clear (queue : String)

/-- `jobs.DefaultQueue` -/
def defaultQueue : String := "default"

def orDefault (queue : String) : String := if queue = "" then defaultQueue else queue

/-- Five minutes. -/
def defaultLease : Nat := 300000

/-- What a call has to do when it begins. -/
def Call.tasks (s : State) : Call → List Task
  | .push id job => [.push id { job with queue := orDefault job.queue }]
  | .pop queue n lease =>
    let queue := orDefault queue
    [.recoverExpiredLeases queue s.now,
      .due queue s.now (if n = 0 then 1 else n) (if lease = 0 then defaultLease else lease)]
  | .settle delivery outcome =>
    match s.deliveries[delivery]? with
    | none => []
    | some d => [.tx (.settleLeased delivery d.id d.job outcome s.now)]
  | .retry id => [.tx (.retry id)]
  | .clear queue => [.list (.scheduled (orDefault queue)), .list (.leased (orDefault queue))]

inductive Action
  | tick (d : Nat)
  | call (c : Call)
  | go (i : Nat)

def step (s : State) : Action → Option State
  | .tick d => some { s with now := s.now + d }
  | .call c => some { s with procs := s.procs ++ [{ tasks := c.tasks s }] }
  | .go i => do
    let p ← s.procs[i]?
    let (p, effect) ← p.next s.store
    some { s.apply effect with procs := s.procs.set i p }

/-! ### What a command can rely on -/

/-- What a client in the middle of a transaction knows: as long as the watched set has not changed,
the id it found is in it. -/
def Proc.Knows (p : Proc) (st : Store Key Job) : Prop :=
  ∀ (t : Tx) (rest : List Task), p.tasks = .tx t :: rest →
    match p.point with
    | .start => True
    | .watched v => v ≤ st.versions t.key
    | .scored v => v ≤ st.versions t.key ∧ (st.versions t.key = v → st.has t.key t.id = true)
    | .loaded v _ => v ≤ st.versions t.key ∧ (st.versions t.key = v → st.has t.key t.id = true)

variable {p p' : Proc} {st : Store Key Job} {t : Tx} {e : Effect}

theorem Proc.knows_of_start (h : p.point = .start) (st : Store Key Job) : p.Knows st := by
  intro t _ _
  simp only [h]

theorem Proc.Knows.since {st' : Store Key Job} (h : p.Knows st) (hs : st.Since st') :
    p.Knows st' := by
  intro t rest ht
  have hp := h t rest ht
  have hg := hs.grows t.key
  -- The count only grows, so one that is still the watched one never moved.
  have hkeep : ∀ v, v ≤ st.versions t.key ∧ (st.versions t.key = v → st.has t.key t.id) →
      v ≤ st'.versions t.key ∧ (st'.versions t.key = v → st'.has t.key t.id) := by
    rintro v ⟨_, hin⟩
    refine ⟨by omega, fun he => ?_⟩
    rw [hs.same t.key (by omega)]
    exact hin (by omega)
  cases hpt : p.point with
  | start => trivial
  | watched =>
    simp only [hpt] at hp ⊢
    omega
  | scored v | loaded v =>
    simp only [hpt] at hp ⊢
    exact hkeep v hp

theorem Tx.next_knows {rest : List Task}
    (ht : p.tasks = .tx t :: rest) (h : p.Knows st) (hn : t.next st p rest = (p', e)) :
    p'.Knows st := by
  have hp := h t rest ht
  unfold Tx.next at hn
  split at hn
  · -- `WATCH` remembers the count as it is.
    cases hn
    intro t' rest' ht'
    simp only [ht, List.cons.injEq, Task.tx.injEq] at ht'
    obtain ⟨rfl, -⟩ := ht'
    exact Nat.le_refl _
  · next v hv =>
    simp only [hv] at hp
    split at hn
    · split at hn
      · cases hn
        exact Proc.knows_of_start rfl st
      · cases hn
        exact Proc.knows_of_start rfl st
    · next score hscore =>
      have hin := Store.zscore_isSome hscore
      split at hn
      · cases hn
        exact Proc.knows_of_start rfl st
      · split at hn <;>
        · cases hn
          intro t' rest' ht'
          simp only [ht, List.cons.injEq, Task.tx.injEq] at ht'
          obtain ⟨rfl, -⟩ := ht'
          exact ⟨hp, fun _ => hin⟩
  · next v hv =>
    simp only [hv] at hp
    split at hn
    · cases hn
      exact Proc.knows_of_start rfl st
    · split at hn
      · cases hn
        exact Proc.knows_of_start rfl st
      · cases hn
        intro t' rest' ht'
        simp only [ht, List.cons.injEq, Task.tx.injEq] at ht'
        obtain ⟨rfl, -⟩ := ht'
        exact hp
  · split at hn
    · cases hn
      exact Proc.knows_of_start rfl st
    · cases hn
      exact Proc.knows_of_start rfl st

theorem Proc.next_knows (h : p.Knows st)
    (hn : p.next st = some (p', e)) : p'.Knows st := by
  unfold Proc.next at hn
  split at hn
  · cases hn
  · cases hn
    exact Proc.knows_of_start rfl st
  · cases hn
    exact Proc.knows_of_start rfl st
  · next t rest ht => exact Tx.next_knows ht h (Option.some.inj hn)
  · cases hn
    exact Proc.knows_of_start rfl st
  · cases hn
    exact Proc.knows_of_start rfl st
  · cases hn
    exact Proc.knows_of_start rfl st

/-- What a step of a client is: one of its commands, and the effect of it. -/
theorem step_go {s u : State} {i : Nat} (h : step s (.go i) = some u) :
    ∃ p p' e, s.procs[i]? = some p ∧ p.next s.store = some (p', e) ∧
      u = { s.apply e with procs := s.procs.set i p' } := by
  obtain ⟨p, hp, h⟩ := Option.bind_eq_some_iff.mp h
  obtain ⟨⟨p', e⟩, hn, h⟩ := Option.bind_eq_some_iff.mp h
  exact ⟨p, p', e, hp, hn, (Option.some.inj h).symm⟩

/-- A transaction changes nothing before its block, and the block is executed at its end, the
watched set unchanged. -/
theorem Tx.next_effect {rest : List Task}
    (hn : t.next st p rest = (p', e)) :
    e = .quiet ∨ ∃ v stored, e = .commit t stored ∧ p.point = .loaded v stored ∧
      st.versions t.key = v ∧ p' = p.pass rest := by
  unfold Tx.next at hn
  split at hn
  · cases hn
    exact .inl rfl
  · split at hn
    · split at hn <;>
      · cases hn
        exact .inl rfl
    · split at hn
      · cases hn
        exact .inl rfl
      · split at hn <;>
        · cases hn
          exact .inl rfl
  · split at hn
    · cases hn
      exact .inl rfl
    · split at hn <;>
      · cases hn
        exact .inl rfl
  · next v b hv =>
    split at hn
    · next hver =>
      cases hn
      exact .inr ⟨v, b, rfl, hv, hver, rfl⟩
    · cases hn
      exact .inl rfl

/-- Where a client stands when a command of it has an effect. -/
def Proc.Sends (p : Proc) (st : Store Key Job) : Effect → Prop
  | .quiet => True
  | .push id job => ∃ rest, p.tasks = .push id job :: rest
  | .wipe key ids => ∃ rest, p.tasks = .wipe key ids :: rest
  | .commit t stored => ∃ rest v, p.tasks = .tx t :: rest ∧ p.point = .loaded v stored ∧ st.versions t.key = v

theorem Proc.next_sends
    (hn : p.next st = some (p', e)) : p.Sends st e := by
  unfold Proc.next at hn
  split at hn
  · cases hn
  · cases hn
    trivial
  · cases hn
    trivial
  · next t rest ht =>
    rcases Tx.next_effect (Option.some.inj hn) with rfl | ⟨v, _, rfl, hv, hver, -⟩
    · trivial
    · exact ⟨rest, v, ht, hv, hver⟩
  · next rest ht =>
    cases hn
    exact ⟨_, ht⟩
  · cases hn
    trivial
  · next rest ht =>
    cases hn
    exact ⟨_, ht⟩

/-- The id of a block that is executed is in the set the block takes it from. -/
theorem Proc.Knows.found (h : p.Knows st) {stored : Option Job}
    (hs : p.Sends st (.commit t stored)) : st.has t.key t.id := by
  obtain ⟨rest, v, ht, hv, hver⟩ := hs
  have hp := h t rest ht
  simp only [hv] at hp
  exact hp.2 hver

/-! ### What an effect leaves of the sets -/

theorem Outcome.since_settle (o : Outcome) (st : Store Key Job) (id : String) (job : Job) (began : Nat) :
    st.Since (o.settle st id job began) := by
  cases o with
  | delete => exact (Store.Since.zrem st _ id).trans (.hdel _ _)
  | release | fail =>
    exact ((Store.Since.hset st id _).trans (.zrem _ _ id)).trans (.zadd _ _ id _)

theorem State.since_commit (s : State) (t : Tx) (stored : Option Job) :
    s.store.Since (s.commit t stored).store := by
  unfold State.commit
  split
  · exact (Store.Since.zrem s.store _ _).trans (.zadd _ _ _ _)
  · exact ((Store.Since.hset s.store _ _).trans (.zrem _ _ _)).trans (.zadd _ _ _ _)
  · exact Outcome.since_settle _ _ _ _ _
  · exact ((Store.Since.hset s.store _ _).trans (.zrem _ _ _)).trans (.zadd _ _ _ _)
  · exact .refl _

theorem State.since_apply (s : State) (e : Effect) : s.store.Since (s.apply e).store := by
  cases e with
  | quiet => exact .refl _
  | push id job => exact (Store.Since.hset s.store id job).trans (.zadd _ _ _ _)
  | wipe _ ids => exact (Store.Since.hdel s.store ids).trans (.del _ _)
  | commit t stored => exact s.since_commit t stored

end Hesape.Queue.Redis
