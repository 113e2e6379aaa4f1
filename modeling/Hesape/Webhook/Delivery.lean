import Hesape.Run.Reach
import Mathlib.Data.List.Range

/-!
# Deliveries

A delivery is a row: its status, how many attempts it had, and who is making one.  A queued job names
the delivery and the count it was scheduled at.  The worker that runs it claims the row by that count,
in one conditional update that writes a fresh token and a lease; makes the request; and settles the row
in a transaction fenced by the token, which records the attempt and queues the next one.  A worker that
finds the endpoint off gives the attempt back instead.  `Redeliver` and the switching of endpoints
change rows from beside.

Statements are atomic, and so is what a transaction writes; what was read before is not.  Everybody is
therefore kept as the point they stand at, with the copies they have read: a worker (`Point`), a
redelivery (`Redelivery`), a change to an endpoint (`Turn`), whose transaction reads the waiting
deliveries page by page before it commits.

The queue keeps a job until it has been handled without an error: a worker that fails or dies leaves its
job there.  It may hold any job, since jobs come twice and late.  The leases granted so far are
remembered beside the source's state.
-/

namespace Hesape.Webhook

/-! ### Rows -/

inductive DeliveryStatus
  | pending
  | processing
  | delivered
  | failed
deriving DecidableEq

/-- What made an attempt: the delivery's plan, or somebody. -/
inductive Trigger
  | scheduled
  | manual
deriving DecidableEq

/-- What an attempt is held to, as far as it matters here. -/
structure Policy where
  timeout : Nat
  honorRetryAfter : Bool
  disableAfter : Nat
deriving DecidableEq

structure Endpoint where
  active : Bool
  consecutiveFailures : Nat
  policy : Policy
deriving DecidableEq

/-- A row of the attempts' history. -/
structure DeliveryAttempt where
  attempt : Nat
  trigger : Trigger
  succeeded : Bool
deriving DecidableEq

/-- A delivery; `endpoint` is the stored endpoint it goes to, if any, and `redelivered` whether
somebody asked for it again. -/
structure Delivery where
  endpoint : Option Nat
  status : DeliveryStatus
  attempts : Nat
  maxAttempts : Nat
  waits : List Nat
  claimToken : Option Nat
  leaseUntil : Option Nat
  nextAttemptAt : Option Nat
  history : List DeliveryAttempt
  redelivered : Bool
deriving DecidableEq

/-- `deliverMessage`, a job's payload. -/
structure Job where
  delivery : Nat
  attempts : Nat
  trigger : Trigger

/-- Ten seconds, in nanoseconds. -/
def leaseHeadroom : Nat := 10 * 1000000000

/-- What one attempt came to; the code is empty for one that delivered. -/
structure Result where
  code : String
  permanent : Bool
  retryAfter : Nat
deriving DecidableEq

def failureEndpointDeleted : String := "endpoint_deleted"

def Result.delivered (r : Result) : Bool := r.code = ""

/-- An attempt under way: the endpoint and the row as they were read, and the claim. -/
structure Take where
  endpoint : Option (Nat × Endpoint)
  policy : Policy
  copy : Delivery
  token : Nat
  lease : Nat
  n : Nat
  trigger : Trigger
deriving DecidableEq

namespace Delivery

variable (d : Delivery)

def waitAfter (n : Nat) : Nat :=
  if 1 ≤ n ∧ n - 1 < d.waits.length then d.waits.getD (n - 1) 0 else d.waits.getLast?.getD 0

/-- The condition of the claiming update: due at the job's count, or abandoned one attempt later. -/
def claimable (job : Job) (now : Nat) : Bool :=
  (d.status = .pending && d.attempts = job.attempts && d.nextAttemptAt.any (· ≤ now))
    || (d.status = .processing && d.attempts = job.attempts + 1 && d.leaseUntil.any (· ≤ now))

def claim (job : Job) (token lease : Nat) : Delivery :=
  { d with status := .processing, claimToken := some token, leaseUntil := some lease, attempts := job.attempts + 1 }

/-- An attempt given back, because the endpoint is off. -/
def giveBack (job : Job) : Delivery :=
  { d with status := .pending, attempts := job.attempts, claimToken := none, leaseUntil := none }

/-- `unclaimed`: the job is asked for again while its attempt is in progress or not due. -/
def unclaimed (job : Job) (now : Nat) : Bool :=
  (d.status = .processing && d.attempts = job.attempts + 1 && d.leaseUntil.any (now < ·))
    || (d.status = .pending && d.attempts = job.attempts && d.nextAttemptAt.any (now < ·))

/-- `Redeliver`: due now, with one attempt more when none was left in the copy it read. -/
def redeliver (copy : Delivery) (now : Nat) : Delivery :=
  { d with status := .pending, nextAttemptAt := some now
           maxAttempts := if copy.maxAttempts ≤ copy.attempts then copy.attempts + 1 else copy.maxAttempts
           claimToken := none, leaseUntil := none, redelivered := true }

end Delivery

namespace Take

variable (t : Take) (r : Result)

/-- When the next attempt is due, if the plan has one. -/
def next (now : Nat) : Option Nat :=
  if r.delivered then none
  else if !r.permanent && t.n < t.copy.maxAttempts then
    some (now + if t.policy.honorRetryAfter then max (t.copy.waitAfter t.n) r.retryAfter else t.copy.waitAfter t.n)
  else none

def status (now : Nat) : DeliveryStatus :=
  if r.delivered then .delivered else if (t.next r now).isSome then .pending else .failed

/-- What the settlement writes to the delivery and its history. -/
def settled (now : Nat) (d : Delivery) : Delivery :=
  { d with status := t.status r now, claimToken := none, leaseUntil := none, nextAttemptAt := t.next r now
           history := d.history ++ [⟨t.n, t.trigger, r.delivered⟩] }

/-- Whether the delivery counts against its endpoint. -/
def gaveUp (now : Nat) : Bool :=
  !r.delivered && (t.next r now).isNone && t.trigger ≠ .manual && r.code ≠ failureEndpointDeleted

end Take

namespace Endpoint

variable (e : Endpoint)

def shouldDisable (disableAfter : Nat) : Bool :=
  0 < disableAfter && e.active && disableAfter ≤ e.consecutiveFailures

/-- `settleEndpoint`: the count of deliveries in a row that gave up, and the turning off at its end. -/
def settle (policy : Policy) (delivered gaveUp : Bool) : Endpoint :=
  if delivered then { e with consecutiveFailures := 0 }
  else if !gaveUp then e
  else
    { e with consecutiveFailures := e.consecutiveFailures + 1
             active := if shouldDisable { e with consecutiveFailures := e.consecutiveFailures + 1 } policy.disableAfter
               then false else e.active }

end Endpoint

/-! ### Everybody's points -/

/-- The operation a worker performs next. -/
inductive Point
  | read
  | clock (endpoint : Option (Nat × Endpoint))
  | claim (endpoint : Option (Nat × Endpoint)) (now : Nat)
  | unclaimed (now : Nat)
  | reread (endpoint : Option (Nat × Endpoint)) (token lease : Nat)
  | giveBack (endpoint token lease : Nat)
  | send (t : Take)
  | sent (t : Take) (r : Result)
  | settle (t : Take) (r : Result) (now : Nat)
  | ended
deriving DecidableEq

structure Worker where
  job : Job
  point : Point

/-- The operation a redelivery performs next. -/
inductive RedeliverPoint
  | read
  | clock (copy : Delivery)
  | write (copy : Delivery) (now : Nat)
  | ended

structure Redelivery where
  delivery : Nat
  point : RedeliverPoint

/-- `Enable`, `Disable` and `Update`. -/
inductive Change
  | enable
  | disable
  | update (active : Bool) (policy : Policy)

namespace Change

/-- The record a change makes of the one it read. -/
def apply : Change → Endpoint → Endpoint
  | .enable, e => { e with active := true, consecutiveFailures := 0 }
  | .disable, e => { e with active := false }
  | .update active policy, e =>
    { e with active := active, policy := policy
             consecutiveFailures := if !e.active && active then 0 else e.consecutiveFailures }

/-- The change turns an endpoint on that was off when it read it. -/
def turnsOn (c : Change) (copy : Endpoint) : Bool := !copy.active && (c.apply copy).active

end Change

/-- `Save` writes the columns that differ from what was read. -/
def Endpoint.save (row copy record : Endpoint) : Endpoint where
  active := if record.active = copy.active then row.active else record.active
  consecutiveFailures :=
    if record.consecutiveFailures = copy.consecutiveFailures then row.consecutiveFailures else record.consecutiveFailures
  policy := if record.policy = copy.policy then row.policy else record.policy

/-- The operation a change performs next.  One that turns the endpoint on reads pages of the
waiting deliveries, with their counts, before it commits. -/
inductive TurnPoint
  | read
  | save (copy : Endpoint)
  | scan (copy : Endpoint) (page : Nat) (found : List (Nat × Nat))
  | commit (copy : Endpoint) (found : List (Nat × Nat))
  | ended

structure Turn where
  endpoint : Nat
  change : Change
  point : TurnPoint

/-- A lease that was granted, and whether its attempt is over. -/
structure Grant where
  delivery : Nat
  token : Nat
  lease : Nat
  ended : Bool := false

structure State where
  now : Nat
  deliveries : Nat → Option Delivery
  /-- Every delivery's id is below it. -/
  bound : Nat
  endpoints : Nat → Endpoint
  queue : List Job
  workers : List Worker
  redeliveries : List Redelivery
  turns : List Turn
  minted : Nat
  grants : List Grant

inductive Action
  | tick (d : Nat)
  | record (id : Nat) (endpoint : Option Nat) (tries : Nat) (waits : List Nat) (trigger : Trigger)
  /-- A job comes again, or late. -/
  | push (job : Job)
  | take (k : Nat)
  /-- A worker performs its next operation; `r` is what its request comes to, should it make one. -/
  | work (i : Nat) (r : Result)
  /-- A worker fails or dies. -/
  | drop (i : Nat)
  | redeliver (id : Nat)
  | redo (i : Nat)
  | turn (endpoint : Nat) (change : Change)
  | change (i : Nat)

/-! ### The system -/

/-- How many rows `Chunk` reads at a time. -/
def pageSize : Nat := 200

namespace State

variable (policy : Policy) (s : State)

/-- The waiting deliveries of an endpoint, in the order of their ids. -/
def waiting (e : Nat) : List Nat :=
  (List.range s.bound).filter fun id =>
    (s.deliveries id).any fun d => d.endpoint = some e && d.status = .pending

/-- One page of them, with their counts. -/
def page (e k : Nat) : List (Nat × Nat) :=
  (((s.waiting e).drop (k * pageSize)).take pageSize).map fun id =>
    (id, ((s.deliveries id).map Delivery.attempts).getD 0)

/-- The endpoint an attempt reads, and the policy it is held to. -/
def endpointOf (d : Delivery) : Option (Nat × Endpoint) := d.endpoint.map fun e => (e, s.endpoints e)

def policyOf (endpoint : Option (Nat × Endpoint)) : Policy :=
  match endpoint with
  | some (_, e) => e.policy
  | none => policy

def put (id : Nat) (d : Delivery) : State := { s with deliveries := Function.update s.deliveries id (some d) }

def goto (i : Nat) (w : Worker) (point : Point) : State := { s with workers := s.workers.set i { w with point := point } }

/-- The attempt made under a token is over. -/
def close (token : Nat) : State :=
  { s with grants := s.grants.map fun g => if g.token = token then { g with ended := true } else g }

def requeue (job : Job) : State := { s with queue := s.queue ++ [job] }

/-- The lease a claim is granted that read the clock at `now`. -/
def leaseOf (endpoint : Option (Nat × Endpoint)) (now : Nat) : Nat :=
  now + (policyOf policy endpoint).timeout + leaseHeadroom

/-- The claiming update went through. -/
def claimed (i : Nat) (w : Worker) (endpoint : Option (Nat × Endpoint)) (lease : Nat) (d : Delivery) : State :=
  goto { s.put w.job.delivery (d.claim w.job s.minted lease) with
         minted := s.minted + 1
         grants := s.grants ++ [⟨w.job.delivery, s.minted, lease, false⟩] } i w (.reread endpoint s.minted lease)

/-- The attempt a claimed delivery makes. -/
def takeOf (w : Worker) (endpoint : Option (Nat × Endpoint)) (token lease : Nat) (d : Delivery) : Take :=
  ⟨endpoint, policyOf policy endpoint, d, token, lease, w.job.attempts + 1, w.job.trigger⟩

/-- What it does next: an endpoint that is off keeps it, unless somebody asked. -/
def proceed (w : Worker) (endpoint : Option (Nat × Endpoint)) (token lease : Nat) (d : Delivery) : Point :=
  match endpoint with
  | none => .send (takeOf policy w endpoint token lease d)
  | some (e, copy) =>
    if !copy.active && w.job.trigger ≠ .manual then .giveBack e token lease
    else .send (takeOf policy w endpoint token lease d)

/-- The jobs a settlement queues. -/
def scheduled (id : Nat) (t : Take) (r : Result) (now : Nat) : List Job :=
  if (t.next r now).isSome then [⟨id, t.n, .scheduled⟩] else []

/-- The endpoints after a settlement. -/
def settledEndpoints (t : Take) (r : Result) (now : Nat) : Nat → Endpoint :=
  match t.endpoint with
  | none => s.endpoints
  | some (e, _) => Function.update s.endpoints e ((s.endpoints e).settle t.policy r.delivered (t.gaveUp r now))

/-- The transaction of `settle`, by a worker that holds the claim. -/
def settled (w : Worker) (t : Take) (r : Result) (now : Nat) (d : Delivery) : State :=
  { s.put w.job.delivery (t.settled r now d) with
    queue := s.queue ++ scheduled w.job.delivery t r now
    endpoints := s.settledEndpoints t r now }

/-- A job whose delivery is gone has nothing left to do. -/
def onRow (i : Nat) (w : Worker) (f : Delivery → State) : State :=
  match s.deliveries w.job.delivery with
  | none => s.goto i w .ended
  | some d => f d

def claimStep (i : Nat) (w : Worker) (endpoint : Option (Nat × Endpoint)) (now : Nat) (d : Delivery) : State :=
  if d.claimable w.job now then s.claimed i w endpoint (leaseOf policy endpoint now) d
  else s.goto i w (.unclaimed now)

def unclaimedStep (i : Nat) (w : Worker) (now : Nat) (d : Delivery) : State :=
  if d.unclaimed w.job now then (s.requeue w.job).goto i w .ended else s.goto i w .ended

def giveBackStep (i : Nat) (w : Worker) (token : Nat) (d : Delivery) : State :=
  if d.claimToken = some token then ((s.put w.job.delivery (d.giveBack w.job)).close token).goto i w .ended
  else (s.close token).goto i w .ended

def settleStep (i : Nat) (w : Worker) (t : Take) (r : Result) (now : Nat) (d : Delivery) : State :=
  if d.claimToken = some t.token then ((s.settled w t r now d).close t.token).goto i w .ended
  else (s.close t.token).goto i w .ended

def work (i : Nat) (w : Worker) (r : Result) : Option State :=
  match w.point with
  | .read => some (s.onRow i w fun d => s.goto i w (.clock (s.endpointOf d)))
  | .clock endpoint => some (s.goto i w (.claim endpoint s.now))
  | .claim endpoint now => some (s.onRow i w (s.claimStep policy i w endpoint now))
  | .unclaimed now => some (s.onRow i w (s.unclaimedStep i w now))
  | .reread endpoint token lease => some (s.onRow i w fun d => s.goto i w (proceed policy w endpoint token lease d))
  | .giveBack _ token _ => some (s.onRow i w (s.giveBackStep i w token))
  | .send t => some (s.goto i w (.sent t r))
  | .sent t r => some (s.goto i w (.settle t r s.now))
  | .settle t r now => some (s.onRow i w (s.settleStep i w t r now))
  | .ended => none

def gotoRedo (i : Nat) (x : Redelivery) (point : RedeliverPoint) : State :=
  { s with redeliveries := s.redeliveries.set i { x with point := point } }

def redo (i : Nat) (x : Redelivery) : Option State :=
  match s.deliveries x.delivery with
  | none => some (s.gotoRedo i x .ended)
  | some d =>
    match x.point with
    | .ended => none
    | .read => some (s.gotoRedo i x (if d.endpoint.isSome then .clock d else .ended))
    | .clock copy =>
      -- An attempt in progress is refused, by the copy.
      some (s.gotoRedo i x
        (if copy.status = .processing ∧ copy.leaseUntil.any (s.now < ·) = true then .ended else .write copy s.now))
    | .write copy now =>
      if d.attempts = copy.attempts ∧ d.status = copy.status then
        some (((s.put x.delivery (d.redeliver copy now)).requeue ⟨x.delivery, copy.attempts, .manual⟩).gotoRedo i x .ended)
      else some (s.gotoRedo i x .ended)

def gotoTurn (i : Nat) (x : Turn) (point : TurnPoint) : State :=
  { s with turns := s.turns.set i { x with point := point } }

/-- The endpoints once a change that read `copy` is saved. -/
def saved (x : Turn) (copy : Endpoint) : Nat → Endpoint :=
  Function.update s.endpoints x.endpoint ((s.endpoints x.endpoint).save copy (x.change.apply copy))

/-- The transaction of a change that turns the endpoint on. -/
def resumed (x : Turn) (copy : Endpoint) (found : List (Nat × Nat)) : State :=
  { s with endpoints := s.saved x copy, queue := s.queue ++ found.map fun row => ⟨row.1, row.2, .scheduled⟩ }

def change (i : Nat) (x : Turn) : Option State :=
  match x.point with
  | .ended => none
  | .read =>
    some (s.gotoTurn i x (if x.change.turnsOn (s.endpoints x.endpoint) then .scan (s.endpoints x.endpoint) 0 []
      else .save (s.endpoints x.endpoint)))
  | .save copy => some (gotoTurn { s with endpoints := s.saved x copy } i x .ended)
  | .scan copy k found =>
    some (s.gotoTurn i x
      (if (s.page x.endpoint k).length = pageSize then .scan copy (k + 1) (found ++ s.page x.endpoint k)
        else .commit copy (found ++ s.page x.endpoint k)))
  | .commit copy found => some ((s.resumed x copy found).gotoTurn i x .ended)

/-- A delivery as `insert` writes it. -/
def inserted (endpoint : Option Nat) (tries : Nat) (waits : List Nat) : Delivery :=
  ⟨endpoint, .pending, 0, tries, waits, none, none, some s.now, [], false⟩

def step : Action → Option State
  | .tick d => some { s with now := s.now + d }
  | .record id endpoint tries waits trigger =>
    -- A policy allows one attempt at least; an id that is taken is answered with what is there.
    if tries = 0 then none
    else if (s.deliveries id).isSome then some s
    else some { s.put id (s.inserted endpoint tries waits) with
                bound := max s.bound (id + 1), queue := s.queue ++ [⟨id, 0, trigger⟩] }
  | .push job => some (s.requeue job)
  | .take k => s.queue[k]?.map fun job =>
      { s with queue := s.queue.eraseIdx k, workers := s.workers ++ [⟨job, .read⟩] }
  | .work i r => s.workers[i]?.bind fun w => s.work policy i w r
  | .drop i => s.workers[i]?.bind fun w =>
      if w.point = .ended then none else some ((s.requeue w.job).goto i w .ended)
  | .redeliver id => some { s with redeliveries := s.redeliveries ++ [⟨id, .read⟩] }
  | .redo i => s.redeliveries[i]?.bind (s.redo i)
  | .turn endpoint change => some { s with turns := s.turns ++ [⟨endpoint, change, .read⟩] }
  | .change i => s.turns[i]?.bind (s.change i)

/-- No delivery yet. -/
def initial (now : Nat) (endpoints : Nat → Endpoint) : State :=
  ⟨now, fun _ => none, 0, endpoints, [], [], [], [], 0, []⟩

end State

end Hesape.Webhook
