import Hesape.Auth.Tenant
import Mathlib.Data.List.AList

/-!
# The sign-in throttle

`MemoryThrottle` counts sign-in attempts, for one identity from one address (the pair) and for one
address across all identities (the client).  A sign-in calls `Attempt` before the password is
checked, which takes a unit of both budgets or refuses, and afterwards at most once `Refund` or
`Clear`, which name the same tenant, identity and client again.

A counter is allocated when an attempt finds none or one whose time has run out.  `trim` drops what has
run out, once per window, and evicts what the map hands over first when the table is at its cap.  Each
call holds the lock from its beginning to its end, so it is one step.

What the policy promises is told by the sign-ins themselves and not by the counters: beside the
throttle, a state keeps for every key who was granted in its counting window and has not been given
back (`Books`).
-/

namespace Hesape.Auth

open Function (update)
open Hesape.Text (isSpace trim)

/-- A policy that `NewMemoryThrottleWith` accepts. -/
structure ThrottlePolicy where
  maxFailures : Int
  maxFailuresPerClient : Int
  window : Int
  lockout : Int
  maxFailures_pos : 0 < maxFailures
  maxFailuresPerClient_pos : 0 < maxFailuresPerClient
  window_pos : 0 < window
  lockout_nonneg : 0 ≤ lockout

structure FailureCount where
  count : Int
  reset : Int

/-- `c.count++`, and the lockout that the unit that spends the budget starts. -/
def FailureCount.more (c : FailureCount) (limit lockout now : Int) : FailureCount where
  count := c.count + 1
  reset := if limit ≤ c.count + 1 ∧ 0 < lockout then now + lockout else c.reset

abbrev Counters := AList fun _ : String => FailureCount

def maxTrackedSignIns : Nat := 65536

structure MemoryThrottle where
  counters : Counters := ∅
  lastSweep : Int

namespace MemoryThrottle

variable (m : MemoryThrottle)

/-- How long a key stays spent, if it is. -/
def spent (key : String) (limit now : Int) : Option Int :=
  match m.counters.lookup key with
  | none => none
  | some c => if ¬now < c.reset ∨ c.count < limit then none else some (c.reset - now)

/-- The counter a unit goes to: the one that is there, or a new one when there is none or its time
has run out. -/
def current (policy : ThrottlePolicy) (key : String) (now : Int) : FailureCount :=
  match m.counters.lookup key with
  | none => ⟨0, now + policy.window⟩
  | some c => if now < c.reset then c else ⟨0, now + policy.window⟩

def count (policy : ThrottlePolicy) (key : String) (limit now : Int) : MemoryThrottle :=
  { m with counters := m.counters.insert key ((m.current policy key now).more limit policy.lockout now) }

def giveBack (key : String) : MemoryThrottle :=
  match m.counters.lookup key with
  | none => m
  | some c =>
    if c.count - 1 ≤ 0 then { m with counters := m.counters.erase key }
    else { m with counters := m.counters.insert key { c with count := c.count - 1 } }

/-- Whether the counter of a key ends at or before `cut`. -/
def ended (cut : Int) (key : String) : Bool := (m.counters.lookup key).any fun c => ¬cut < c.reset

def dropUpTo (cut : Int) : Counters :=
  m.counters.keys.foldl (fun t k => if m.ended cut k then t.erase k else t) m.counters

/-- The eviction at the cap, of keys in the order the map hands them over. -/
def evict (order : List String) (t : Counters) : Counters :=
  order.foldl (fun t k => if t.keys.length ≤ maxTrackedSignIns - 2 then t else t.erase k) t

/-- The sweep of `trim`. -/
def swept (policy : ThrottlePolicy) (now : Int) : MemoryThrottle :=
  if policy.window ≤ now - m.lastSweep then { m with counters := m.dropUpTo now, lastSweep := now } else m

def trim (policy : ThrottlePolicy) (now : Int) (order : List String) : MemoryThrottle :=
  { m.swept policy now with counters := evict order (m.swept policy now).counters }

/-- `Attempt` for the keys of a pair and its client: how long to wait, if it is refused. -/
def attempt (policy : ThrottlePolicy) (pk ck : String) (now : Int) (order : List String) :
    Option Int × MemoryThrottle :=
  let m := m.trim policy now order
  match m.spent pk policy.maxFailures now with
  | some retry => (some retry, m)
  | none =>
    match m.spent ck policy.maxFailuresPerClient now with
    | some retry => (some retry, m)
    | none =>
      (none, (m.count policy pk policy.maxFailures now).count policy ck policy.maxFailuresPerClient now)

def refund (pk ck : String) : MemoryThrottle := (m.giveBack pk).giveBack ck

def clear (pk ck : String) : MemoryThrottle :=
  MemoryThrottle.giveBack { m with counters := m.counters.erase pk } ck

end MemoryThrottle

def pairKey (tenant fingerprint client : String) : String :=
  "signin:" ++ (tenant ++ ":" ++ (fingerprint ++ ":" ++ client))

def clientKey (tenant client : String) : String := "client:" ++ (tenant ++ ":" ++ client)

/-! ### Sign-ins -/

structure SignIn where
  tenant : String
  identity : String
  client : String
  valid : validTenant tenant = true

/-- A throttle and the sign-ins that call it.  `toLower` is Unicode's table, by which no letter becomes
white space; `digest` is what the key has of an identity. -/
structure World where
  policy : ThrottlePolicy
  signIns : Nat → SignIn
  toLower : Char → Char
  isSpace_toLower : ∀ c, isSpace (toLower c) = isSpace c
  digest : String → String
  start : Int

namespace World

variable (w : World)

def fingerprint (identity : String) : String :=
  w.digest (String.ofList ((trim isSpace identity.toList).map w.toLower))

def pair (i : Nat) : String :=
  pairKey (w.signIns i).tenant (w.fingerprint (w.signIns i).identity) (w.signIns i).client

def client (i : Nat) : String := clientKey (w.signIns i).tenant (w.signIns i).client

end World

/-- Where a sign-in stands. -/
inductive Place
  | waiting
  | granted
  | refused (retryAfter : Int)
  | refunded
  | cleared
deriving DecidableEq

/-- A counting window: the sign-ins that were granted in it and not given back, and its reset. -/
structure Window where
  units : List Nat
  reset : Int
deriving DecidableEq

/-- The last window of every key. -/
abbrev Books := String → Option Window

/-- The window that is open, or a new one. -/
def Window.current (policy : ThrottlePolicy) (now : Int) : Option Window → Window
  | none => ⟨[], now + policy.window⟩
  | some x => if now < x.reset then x else ⟨[], now + policy.window⟩

/-- A sign-in is granted.  The one that spends the budget keeps the window open for the lockout. -/
def Window.enter (policy : ThrottlePolicy) (limit now : Int) (i : Nat) (x : Option Window) : Option Window :=
  let x := current policy now x
  some {
    units := i :: x.units
    reset := if limit ≤ x.units.length + 1 ∧ 0 < policy.lockout then now + policy.lockout else x.reset }

/-- A sign-in is given back.  The window nobody is left in is closed. -/
def Window.leave (i : Nat) : Option Window → Option Window
  | none => none
  | some x => if x.units.erase i = [] then none else some { x with units := x.units.erase i }

/-- Somebody is counted in the last window of a key. -/
def Books.counts (books : Books) (key : String) (i : Nat) : Bool := (books key).any (i ∈ ·.units)

structure State where
  throttle : MemoryThrottle
  now : Int
  places : Nat → Place
  books : Books

inductive Action
  | attempt (i : Nat) (order : List String)
  | refund (i : Nat)
  | clear (i : Nat)
  | tick (d : Nat)

def World.initial (w : World) : State where
  throttle := ⟨∅, w.start⟩
  now := w.start
  places _ := .waiting
  books _ := none

/-- A sign-in is granted, and the throttle is `m` afterwards. -/
def State.grant (s : State) (w : World) (i : Nat) (m : MemoryThrottle) : State :=
  let pair := Window.enter w.policy w.policy.maxFailures s.now i (s.books (w.pair i))
  let client := Window.enter w.policy w.policy.maxFailuresPerClient s.now i (s.books (w.client i))
  { s with
    throttle := m
    places := update s.places i .granted
    books := update (update s.books (w.pair i) pair) (w.client i) client }

def step (w : World) (s : State) : Action → Option State
  | .attempt i order =>
    if s.places i = .waiting then
      match s.throttle.attempt w.policy (w.pair i) (w.client i) s.now order with
      | (some retry, m) => some { s with throttle := m, places := update s.places i (.refused retry) }
      | (none, m) => some (s.grant w i m)
    else none
  | .refund i =>
    if s.places i = .granted then
      some { s with
        throttle := s.throttle.refund (w.pair i) (w.client i)
        places := update s.places i .refunded
        books := update (update s.books (w.pair i) (Window.leave i (s.books (w.pair i)))) (w.client i)
          (Window.leave i (s.books (w.client i))) }
    else none
  | .clear i =>
    if s.places i = .granted then
      -- A `Clear` forgets everybody in the window of the pair.
      some { s with
        throttle := s.throttle.clear (w.pair i) (w.client i)
        places := update s.places i .cleared
        books := update (update s.books (w.pair i) none) (w.client i) (Window.leave i (s.books (w.client i))) }
    else none
  | .tick d => some { s with now := s.now + d }

end Hesape.Auth
