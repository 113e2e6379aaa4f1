import Hesape.Bus.Batch

/-!
# Chains, and batches in them

A chain pushes its first link with the links that follow it in the envelope, and the report of a
link (`handled`) pushes the next one, with the rest.  A link may be a whole batch: its job, when it
arrives, dispatches the batch (`ChainedBatch.handle`), with the next link as the `Finally` callback
and the chain's `Catch` for a batch that has none of its own.

The job of such a link is a link like the others, and `handled` reports it too.

The state is the queue with the batches; a delivered job is taken from the queue, and what its
report pushes is pushed one by one, while other jobs are delivered (`Act.go`).  Every push is
remembered with the reason it was made for, and every job with its outcome.
-/

namespace Hesape.Bus

def Options.map {σ τ : Type} (o : Options σ) (f : σ → τ) : Options τ :=
  { before := o.before.map f
    progress := o.progress.map f
    then_ := o.then_.map f
    catch_ := o.catch_.map f
    failure := o.failure.map f
    finally_ := o.finally_.map f
    allowFailures := o.allowFailures
    queue := o.queue }

namespace Chain

/-- A job: where it goes, what it is called, and its arguments. -/
structure Job where
  queue : String := ""
  name : String
  payload : String := ""

/-- A batch that travels as the payload of a link. -/
structure ChainedBatch where
  name : String
  jobs : List Job
  options : Options Job

inductive Payload
  | raw (s : String)
  | batch (c : ChainedBatch)

/-- A link of a chain. -/
structure Step where
  queue : String := ""
  name : String
  payload : Payload

def chainedBatchJob : String := "bus.chained-batch"

def ChainedBatch.step (c : ChainedBatch) : Step :=
  { queue := c.options.queue, name := chainedBatchJob, payload := .batch c }

/-- What the bus puts around a job's arguments. -/
structure Envelope where
  batch : Option Nat := none
  job : String := ""
  chain : List Step := []
  catch_ : Option Job := none
  body : Payload

/-- What is pushed: arguments, or arguments in an envelope. -/
inductive Sent
  | plain (payload : String)
  | wrapped (e : Envelope)

structure Message where
  queue : String
  name : String
  sent : Sent

def Job.message (j : Job) : Message := ⟨j.queue, j.name, .plain j.payload⟩

/-- A link with the links that follow it. -/
def linkMessage (s : Step) (rest : List Step) (catch_ : Option Job) : Message :=
  ⟨s.queue, s.name, .wrapped { chain := rest, catch_, body := s.payload }⟩

/-- Why a job was pushed. -/
inductive Reason
  | link
  | chainCatch
  | member (batch : Nat)
  | callback (batch : Nat) (m : Moment)
  deriving DecidableEq

/-- What a delivered job has still to do. -/
inductive Task
  | push (why : Reason) (m : Message)
  | markAsFinished (batch : Nat)
  | cancel (batch : Nat)

structure State where
  queue : List Message := []
  batches : List (Batch Message) := []
  todo : List (List Task) := []
  pushed : List (Reason × Message) := []
  reports : List (Message × Bool) := []

/-! ### Reporting -/

def Envelope.dispatchNextJobInChain (e : Envelope) : List Task :=
  match e.chain with
  | [] => []
  | next :: rest => [.push .link (linkMessage next rest e.catch_)]

def Envelope.invokeChainCatchCallbacks (e : Envelope) : List Task :=
  (e.catch_.map fun j => Task.push .chainCatch j.message).toList

/-- Where a callback or a job of a batch goes: its own queue, or the batch's. -/
def queueFor (options : Options Message) (queue : String) : String :=
  if queue ≠ "" then queue else options.queue

def deedTask (b : Nat) (options : Options Message) : Deed Message → Task
  | .push m x => .push (.callback b m) { x with queue := queueFor options x.queue }
  | .markAsFinished => .markAsFinished b
  | .cancel => .cancel b

/-- The batch's part of a report. -/
def reportBatch (batches : List (Batch Message)) (e : Envelope) (ok : Bool) : List (Batch Message) × List Task :=
  match e.batch with
  | none => (batches, [])
  | some n =>
    match batches[n]? with
    | none => (batches, [])
    | some b => (batches.set n (b.record e.job ok).1, (b.record e.job ok).2.map (deedTask n b.options))

def Envelope.chainTasks (e : Envelope) : Bool → List Task
  | true => e.dispatchNextJobInChain
  | false => e.invokeChainCatchCallbacks

/-- Reports a job's outcome, after what its handler did (`first`). -/
def State.handled (s : State) (m : Message) (e : Envelope) (ok : Bool) (first : List Task) : State :=
  let report := reportBatch s.batches e ok
  { s with
    batches := report.1
    todo := s.todo ++ [first ++ report.2 ++ e.chainTasks ok]
    reports := s.reports ++ [(m, ok)] }

/-! ### Batches as links -/

/-- The batch's settings, with the chain's `Catch` for one that has none. -/
def ChainedBatch.toPendingBatch (c : ChainedBatch) (chainCatch : Option Job) : Options Message :=
  let options := c.options.map Job.message
  { options with catch_ := options.catch_.or (chainCatch.map Job.message) }

/-- The next link becomes the batch's `Finally`. -/
def attachRemainderOfChainToEndOfBatch (e : Envelope) (options : Options Message) : Options Message :=
  match e.chain with
  | [] => options
  | next :: rest => { options with finally_ := some (linkMessage next rest e.catch_) }

/-- A batch without jobs, or with a job that has no name, is refused. -/
def ChainedBatch.dispatches (c : ChainedBatch) : Bool := c.jobs ≠ [] && c.jobs.all (·.name ≠ "")

def memberTask (b : Nat) (options : Options Message) (id : String) (j : Job) : Task :=
  .push (.member b) ⟨queueFor options j.queue, j.name, .wrapped { batch := some b, job := id, body := .raw j.payload }⟩

/-- Stores the batch under the number `b` and pushes its jobs under `ids`. -/
def ChainedBatch.handle (c : ChainedBatch) (e : Envelope) (b : Nat) (ids : List String) :
    Batch Message × List Task :=
  let options := attachRemainderOfChainToEndOfBatch e (c.toPendingBatch e.catch_)
  (.store c.jobs.length options,
    (options.before.map fun x =>
      Task.push (.callback b .before) { x with queue := queueFor options x.queue }).toList ++
    List.zipWith (memberTask b options) ids c.jobs)

/-! ### The runs -/

inductive Act
  | deliver (i : Nat) (ok : Bool) (ids : List String)
  | go (i : Nat)

/-- The ids that are drawn for the jobs of a batch. -/
def fresh (ids : List String) (n : Nat) : Bool := ids.length = n && ids.Nodup && "" ∉ ids

/-- A job is delivered, does its work with the outcome `ok`, and reports.  The work of a batch's link
is to dispatch the batch, and its outcome is that of the dispatch. -/
def State.deliver (s : State) (m : Message) (ok : Bool) (ids : List String) : Option State :=
  match m.sent with
  | .plain _ => some { s with reports := s.reports ++ [(m, ok)] }
  | .wrapped e =>
    match e.body with
    | .raw _ => some (s.handled m e ok [])
    | .batch c =>
      if c.dispatches then
        if fresh ids c.jobs.length then
          let batch := c.handle e s.batches.length ids
          some (State.handled { s with batches := s.batches ++ [batch.1] } m e true batch.2)
        else none
      else some (s.handled m e false [])

def State.perform (s : State) : Task → State
  | .push why m => { s with queue := s.queue ++ [m], pushed := s.pushed ++ [(why, m)] }
  | .markAsFinished n =>
    { s with batches := s.batches.modify n fun b => b.perform .markAsFinished }
  | .cancel n => { s with batches := s.batches.modify n fun b => b.perform .cancel }

def step (s : State) : Act → Option State
  | .deliver i ok ids =>
    match s.queue[i]? with
    | none => none
    | some m => State.deliver { s with queue := s.queue.eraseIdx i } m ok ids
  | .go i =>
    match s.todo[i]? with
    | some (t :: rest) => some (State.perform { s with todo := s.todo.set i rest } t)
    | _ => none

end Chain

/-- A chain as it is described: its links, its `Catch`, and its queue. -/
structure Chain where
  jobs : List Chain.Step
  catch_ : Option Chain.Job := none
  queue : String := ""

namespace Chain

/-- The links, each on its own queue or the chain's. -/
def links (c : Chain) : List Step :=
  c.jobs.map fun s => if s.queue = "" then { s with queue := c.queue } else s

def catchJob (c : Chain) : Option Job :=
  c.catch_.map fun j => if j.queue = "" then { j with queue := c.queue } else j

/-- Pushes the first link, carrying the rest; an empty chain is refused. -/
def dispatch (c : Chain) : Option State :=
  match c.links with
  | [] => none
  | first :: rest =>
    let m := linkMessage first rest c.catchJob
    some { queue := [m], pushed := [(.link, m)] }

end Chain

end Hesape.Bus
