import Hesape.Redis.Keys
import Hesape.Run.Reach

/-!
# The concurrency limiter

`ConcurrencyLimiter` is a semaphore of named slots over one Redis: slot `i` of a limiter is the key
made of its name and the number `i`, and holding it is having one's id under that key.  `Block` asks
for the slots one after another with `SET NX`, waits and starts over when all are busy, runs the
callback and then gives the slot back: it watches the key, reads it, and removes it in a transaction
if its own id is there.  A key with a lifetime may expire at any time.

A caller's step reads and writes a single key, the `target` of the place it stands at, so what it
does is a function of what is under that key (`effect`).  Ids are random and never come twice; here
an id is the caller itself.  A command is answered or, when the context has ended, not sent.
-/

namespace Hesape.Limiters

open Hesape.Redis (Keys)

/-- The prefix of the connection, and what `NewConcurrencyLimiter` is given beside it. -/
structure ConcurrencyLimiter where
  redis : String := ""
  name : String
  maxLocks : Int
  releaseAfter : Int
deriving DecidableEq

/-- `Connection.Key`. -/
def key (pre k : String) : String := if pre = "" then k else pre ++ ":" ++ k

/-- The key of slot `i`. -/
def ConcurrencyLimiter.slot (l : ConcurrencyLimiter) (i : Nat) : String :=
  key l.redis (l.name ++ toString i)

/-- One call of `Block`, and the id it drew. -/
structure Caller where
  limiter : ConcurrencyLimiter
  number : Nat
deriving DecidableEq

/-- What is under a slot's key: who holds it, and whether it expires. -/
structure Holding where
  id : Caller
  expires : Bool
deriving DecidableEq

/-- How the callback ended. -/
inductive Outcome
  | ok
  | failed
  | panicked
deriving DecidableEq

/-- How `Block` ended. -/
inductive Result
  | ran (outcome : Outcome)
  | timeout
  | failed
deriving DecidableEq

/-- Where a call of `Block` stands. -/
inductive Place
  /-- In `acquire`, about to ask for slot `i`. -/
  | trying (i : Nat)
  /-- Every slot was busy. -/
  | waiting
  /-- In the callback. -/
  | running (slot : String)
  /-- In the deferred `release`, before its `WATCH`. -/
  | leaving (slot : String) (outcome : Outcome)
  | watching (slot : String) (outcome : Outcome) (version : Nat)
  /-- `GET` answered the caller's own id. -/
  | checked (slot : String) (outcome : Outcome) (version : Nat)
  | returned (result : Result)
deriving DecidableEq

/-- What a caller does next. -/
inductive Op
  | acquire
  | again
  | giveUp (timedOut : Bool)
  | finish (outcome : Outcome)
  | watch
  | get
  | exec
deriving DecidableEq

inductive Action
  | move (who : Caller) (op : Op)
  /-- The lifetime of what a caller has under a key ends. -/
  | expire (who : Caller) (slot : String)

/-- Whether `SetNX` with this expiration writes a key that expires, if it is sent a valid one:
zero and `KeepTTL` write a key that stays. -/
def expiration (d : Int) : Option Bool :=
  if d = 0 ∨ d = -1 then some false else if d < 0 then none else some true

/-- The key a step at a place is about. -/
def target (who : Caller) : Place → String
  | .trying i => who.limiter.slot i
  | .running slot | .leaving slot _ | .watching slot _ _ | .checked slot _ _ => slot
  | .waiting | .returned _ => ""

/-- **One step of a call**: where it stands afterwards and what it writes under its target, from what
is there and how often that was written.  The inner `none` removes the key. -/
def effect (who : Caller) (entry : Option Holding) (version : Nat) :
    Op → Place → Option (Place × Option (Option Holding))
  | .acquire, .trying i =>
    if who.limiter.maxLocks < i then some (.waiting, none)
    else match expiration who.limiter.releaseAfter with
      | none => some (.returned .failed, none)
      | some expires =>
        if entry.isSome then some (.trying (i + 1), none)
        else some (.running (who.limiter.slot i), some (some ⟨who, expires⟩))
  -- The context ended before the command was sent.
  | .giveUp false, .trying _ => some (.returned .failed, none)
  | .again, .waiting => some (.trying 1, none)
  | .giveUp timedOut, .waiting => some (.returned (if timedOut then .timeout else .failed), none)
  | .finish outcome, .running slot => some (.leaving slot outcome, none)
  | .watch, .leaving slot outcome => some (.watching slot outcome version, none)
  | .get, .watching slot outcome n =>
    if entry.any (·.id = who) then some (.checked slot outcome n, none)
    else some (.returned (.ran outcome), none)
  | .exec, .checked _ outcome n => some (.returned (.ran outcome), if version = n then some none else none)
  | _, _ => none

structure State where
  store : Keys String Holding := {}
  callers : Caller → Place := fun _ => .trying 1

/-- Nothing is held, and every call is about to begin. -/
def initial : State := {}

/-- What a step leaves in the store. -/
def wrote (store : Keys String Holding) (k : String) : Option (Option Holding) → Keys String Holding
  | none => store
  | some v => store.write k v

def step (s : State) : Action → Option State
  | .move who op =>
    let k := target who (s.callers who)
    (effect who (s.store.entries k) (s.store.versions k) op (s.callers who)).map fun (place, w) =>
      { store := wrote s.store k w, callers := Function.update s.callers who place }
  | .expire who slot =>
    if s.store.entries slot = some ⟨who, true⟩ then some { s with store := s.store.write slot none }
    else none

end Hesape.Limiters
