import Hesape.Redis.Keys
import Hesape.Run.Reach
import Mathlib.Algebra.Group.Int.Defs

/-!
# The duration limiter

`DurationLimiter` grants a number of acquisitions per window.  The window is a hash of three fields
under the limiter's key: when it starts and ends, in Unix seconds, and how many have asked.  `Acquire`
watches the key, reads the fields and then the clock, and opens a window or counts itself into the
one there is in a transaction, which is tried again up to ten times when the key was written since.
`TooManyAttempts` reads the clock and then the fields.  `Clear` removes the key, and so does its
expiry, at any time.

Every command and every reading of the clock is a step of its own; the clock never goes back.  What a
state remembers beside the source is how many acquisitions were granted since the last window was
opened.
-/

namespace Hesape.Limiters.Duration

open Hesape.Redis (Keys)

/-- `time.Second`, in nanoseconds. -/
def second : Int := 1000000000

structure DurationLimiter where
  maxLocks : Int
  decay : Int

/-- The length of a window, in seconds. -/
def DurationLimiter.seconds (l : DurationLimiter) : Int :=
  if l.decay.tdiv second < 1 then 1 else l.decay.tdiv second

/-- A 64-bit integer. -/
def wrap (n : Int) : Int := (n + 2 ^ 63) % 2 ^ 64 - 2 ^ 63

/-- What `Expire` is sent: twice the window, in seconds, as a `Duration` holds it. -/
def DurationLimiter.expire (l : DurationLimiter) : Int := (wrap (2 * l.seconds * second)).tdiv second

/-- The hash of a window. -/
structure Window where
  start : Int
  stop : Int
  count : Int
deriving DecidableEq

/-- A field as it is read back: a sign is no digit, and what is no number is zero. -/
def toInt (n : Int) : Int := if n < 0 then 0 else n

/-- The three fields `HMGET` answers; what is not there is zero. -/
def fields : Option Window → Window
  | none => ⟨0, 0, 0⟩
  | some e => ⟨toInt e.start, toInt e.stop, toInt e.count⟩

/-- There is no window, or it has passed. -/
def passed (f : Window) (now : Int) : Bool := f.stop = 0 || now < f.start || f.stop < now

/-- What a call answers, with the two fields it sets. -/
structure Answer where
  yes : Bool
  decaysAt : Int
  remaining : Int
deriving DecidableEq

namespace DurationLimiter

variable (l : DurationLimiter)

/-- The transaction of `Acquire`, for the fields it read and the clock's reading: its answer and what
it leaves of the hash.  A lifetime that is not positive removes the key at once. -/
def acquire (f : Window) (entry : Option Window) (now : Int) : Answer × Option Window :=
  if passed f now then
    (⟨true, now + l.seconds, l.maxLocks - 1⟩,
      if 0 < l.expire then some ⟨now, now + l.seconds, 1⟩ else none)
  else
    let e := entry.getD ⟨0, 0, 0⟩
    (⟨e.count + 1 ≤ l.maxLocks, f.stop, max 0 (l.maxLocks - (e.count + 1))⟩, some { e with count := e.count + 1 })

/-- `TooManyAttempts`, for the fields it read. -/
def tooManyAttempts (f : Window) (now : Int) : Answer :=
  if passed f now then ⟨false, now + l.seconds, l.maxLocks⟩
  else
    let remaining := max 0 (l.maxLocks - f.count)
    ⟨remaining ≤ 0, f.stop, remaining⟩

end DurationLimiter

inductive Call
  | acquire
  | tooManyAttempts
  | clear

/-- Where a call stands. -/
inductive Place
  /-- Before the `WATCH` of `Acquire`, with so many retries left, or before the call's first step. -/
  | begun (retries : Nat)
  | watched (retries version : Nat)
  | read (retries version : Nat) (f : Window)
  /-- The clock was read; before `EXEC`. -/
  | timed (retries version : Nat) (f : Window) (now : Int)
  /-- `TooManyAttempts` has read the clock. -/
  | clocked (now : Int)
  | answered (now : Int) (answer : Answer)
  | cleared
  | failed
deriving DecidableEq

/-- A limiter, its key and the calls made of it. -/
structure World where
  limiter : DurationLimiter
  key : String
  calls : Nat → Call
  start : Int

structure State where
  store : Keys String Window := {}
  clock : Int
  places : Nat → Place := fun _ => .begun 9
  /-- The acquisitions granted since the last window was opened. -/
  grants : Nat := 0

inductive Action
  | next (i : Nat)
  /-- The context has ended, or a command failed. -/
  | fail (i : Nat)
  | expire
  | tick (d : Nat)

def World.initial (w : World) : State := { clock := w.start }

def State.go (s : State) (i : Nat) (p : Place) : State := { s with places := Function.update s.places i p }

variable (w : World)

def World.entry (s : State) : Option Window := s.store.entries w.key

def World.version (s : State) : Nat := s.store.versions w.key

/-- The grants since the last opening, after a transaction on the fields `f`. -/
def counted (grants : Nat) (f : Window) (now : Int) (answer : Answer) : Nat :=
  if passed f now then 1 else if answer.yes then grants + 1 else grants

def step (s : State) : Action → Option State
  | .tick d => some { s with clock := s.clock + d }
  | .expire => if (w.entry s).isSome then some { s with store := s.store.write w.key none } else none
  | .fail i => some (s.go i .failed)
  | .next i =>
    match w.calls i, s.places i with
    | .acquire, .begun retries => some (s.go i (.watched retries (w.version s)))
    | .acquire, .watched retries version => some (s.go i (.read retries version (fields (w.entry s))))
    | .acquire, .read retries version f => some (s.go i (.timed retries version f s.clock))
    | .acquire, .timed retries version f now =>
      if w.version s = version then
        let r := w.limiter.acquire f (w.entry s) now
        some {
          store := s.store.write w.key r.2
          clock := s.clock
          places := Function.update s.places i (.answered now r.1)
          grants := counted s.grants f now r.1 }
      else some (s.go i (if retries = 0 then .failed else .begun (retries - 1)))
    | .tooManyAttempts, .begun _ => some (s.go i (.clocked s.clock))
    | .tooManyAttempts, .clocked now =>
      some (s.go i (.answered now (w.limiter.tooManyAttempts (fields (w.entry s)) now)))
    | .clear, .begun _ =>
      some { s.go i .cleared with
        store := if (w.entry s).isSome then s.store.write w.key none else s.store }
    | _, _ => none

end Hesape.Limiters.Duration
