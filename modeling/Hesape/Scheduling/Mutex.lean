import Hesape.Cache.Locks
import Hesape.Run.Reach

/-!
# The scheduler's mutexes

Replicas of one application share a lock store and run the same schedule.  A one-server event is
claimed for a minute by `CacheSchedulingMutex.Create`, which takes a lock named after the event and
the clock's hour and minute and never gives it back; an event `WithoutOverlapping` runs while it
holds the lock of `CacheEventMutex`, which remembers per process, under the event's name, the lock
it took last.  Both mutexes answer `Exists` by taking the lock and giving it back, so an `Exists`
has two operations and others come between them.

`step` is one operation on the store, of any replica, or the passing of time.  What a state
remembers beside the source is the claims made so far and the runs in progress.
-/

namespace Hesape.Scheduling

open Hesape.Cache

/-- A minute, in nanoseconds. -/
def minute : Nat := 60 * 1000000000

/-- `time.Hour`. -/
def hour : Nat := 60 * minute

/-! ### Events and windows -/

/-- What the mutexes read of an event: the name of its lock, and how many minutes that lives. -/
structure Event where
  mutexName : String
  expiresAt : Int := 1440

/-- A `time.Time`: an instant, and how many minutes its location is ahead of UTC there. -/
structure At where
  instant : Nat
  offset : Int

namespace At

/-- The minute an instant lies in. -/
def minute (a : At) : Nat := a.instant / Scheduling.minute

/-- The minute of the day its location's clock shows. -/
def ofDay (a : At) : Nat := ((a.minute + a.offset) % 1440).toNat

def digit (n : Nat) : Char := Char.ofNat (48 + n)

/-- `Format("1504")`. -/
def format (a : At) : String :=
  String.ofList [digit (a.ofDay / 600), digit (a.ofDay / 60 % 10), digit (a.ofDay % 60 / 10), digit (a.ofDay % 10)]

theorem digit_inj : ∀ x < 10, ∀ y < 10, digit x = digit y → x = y := by decide

theorem ofDay_lt (a : At) : a.ofDay < 1440 := by
  have := Int.emod_lt_of_pos (a.minute + a.offset) (show (0 : Int) < 1440 by decide)
  unfold ofDay
  omega

theorem length_format (a : At) : a.format.toList.length = 4 := by
  rw [format, String.toList_ofList]
  rfl

/-- The clock's digits tell the minute of the day. -/
theorem format_inj {a b : At} (h : a.format = b.format) : a.ofDay = b.ofDay := by
  have ha := a.ofDay_lt
  have hb := b.ofDay_lt
  have hchars := String.ofList_injective h
  simp only [List.cons.injEq, and_true] at hchars
  obtain ⟨h1, h2, h3, h4⟩ := hchars
  have h1 := digit_inj _ (by omega) _ (by omega) h1
  have h2 := digit_inj _ (by omega) _ (by omega) h2
  have h3 := digit_inj _ (by omega) _ (by omega) h3
  have h4 := digit_inj _ (by omega) _ (by omega) h4
  omega

end At

/-- The event's mutex name with the window appended. -/
def schedulingMutexName (event : Event) (a : At) : String := event.mutexName ++ a.format

def schedulingMutexTTL : Int := hour

theorem schedulingMutexName_ne_empty (event : Event) (a : At) : schedulingMutexName event a ≠ "" := by
  intro h
  have hchars := congrArg (fun s : String => s.toList.length) h
  simp [schedulingMutexName, a.length_format] at hchars

/-- The name of a window tells the event and the time of day. -/
theorem schedulingMutexName_inj {e f : Event} {a b : At} (h : schedulingMutexName e a = schedulingMutexName f b) :
    e.mutexName = f.mutexName ∧ a.ofDay = b.ofDay := by
  have hchars := congrArg String.toList h
  rw [schedulingMutexName, schedulingMutexName, String.toList_append, String.toList_append] at hchars
  obtain ⟨hname, hclock⟩ := List.append_inj' hchars (a.length_format.trans b.length_format.symm)
  exact ⟨String.toList_inj.mp hname, At.format_inj (String.toList_inj.mp hclock)⟩

/-! ### The mutexes -/

/-- `CacheSchedulingMutex.Create`: whether the window was claimed, with the token it was claimed by. -/
def CacheSchedulingMutex.create (locks : Locks) (now : Nat) (event : Event) (a : At) :
    Except LockError (Option Nat) × Locks :=
  match locks.acquire now (schedulingMutexName event a) schedulingMutexTTL with
  | (.ok token, l) => (.ok (some token), l)
  | (.error .locked, l) => (.ok none, l)
  | (.error e, l) => (.error e, l)

/-- How far an `Exists` has come: it knows the answer, or has taken the lock it asks about. -/
inductive Asked
  | answer (r : Except LockError Bool)
  | taken (token : Nat)

/-- The first half of both `Exists`. -/
def probe (locks : Locks) (now : Nat) (name : String) (ttl : Int) : Asked × Locks :=
  match locks.acquire now name ttl with
  | (.ok token, l) => (.taken token, l)
  | (.error .locked, l) => (.answer (.ok true), l)
  | (.error e, l) => (.answer (.error e), l)

def CacheSchedulingMutex.exists (locks : Locks) (now : Nat) (event : Event) (a : At) : Asked × Locks :=
  probe locks now (schedulingMutexName event a) schedulingMutexTTL

/-- The lock a process took last under each event's name. -/
abbrev Held := String → Option Nat

/-- `time.Duration(expiresAt) * time.Minute`, of 64 bits. -/
def Event.lifetime (event : Event) : Int := Int.bmod (event.expiresAt * minute) (2 ^ 64)

/-- A mutex this process holds needs no asking. -/
def CacheEventMutex.exists (held : Held) (locks : Locks) (now : Nat) (event : Event) : Asked × Locks :=
  if (held event.mutexName).isSome then (.answer (.ok true), locks)
  else probe locks now event.mutexName event.lifetime

/-- `CacheEventMutex.Create`: whether the mutex was taken, with its token. -/
def CacheEventMutex.create (held : Held) (locks : Locks) (now : Nat) (event : Event) :
    Except LockError (Option Nat) × Held × Locks :=
  match locks.acquire now event.mutexName event.lifetime with
  | (.ok token, l) => (.ok (some token), Function.update held event.mutexName (some token), l)
  | (.error .locked, l) => (.ok none, held, l)
  | (.error e, l) => (.error e, held, l)

/-- `CacheEventMutex.Forget`: whatever the process holds under the name is given back. -/
def CacheEventMutex.forget (held : Held) (locks : Locks) (now : Nat) (event : Event) : Held × Locks :=
  match held event.mutexName with
  | none => (held, locks)
  | some token => (Function.update held event.mutexName none, locks.release now event.mutexName token)

/-! ### The system -/

/-- An `Exists` that has taken a lock and not given it back. -/
structure Probe where
  name : String
  token : Nat

/-- A run of an event that took its mutex. -/
structure Run where
  replica : Nat
  event : Event
  token : Nat
  expires : Nat
  finished : Bool := false

/-- A `Create` of a window, and whether it was granted. -/
structure Claim where
  event : Event
  at_ : At
  granted : Bool
  time : Nat
  token : Nat

structure State where
  now : Nat
  locks : Locks
  held : Nat → Held
  probes : List Probe
  runs : List Run
  claims : List Claim

inductive Action
  | tick (d : Nat)
  /-- `CacheSchedulingMutex.Create`. -/
  | claim (event : Event) (a : At)
  /-- `CacheSchedulingMutex.Exists`, up to its answer or its release. -/
  | askWindow (event : Event) (a : At)
  /-- `CacheEventMutex.Exists`, up to its answer or its release. -/
  | askEvent (replica : Nat) (event : Event)
  /-- The release at the end of an `Exists`. -/
  | giveBack (i : Nat)
  /-- `Event.Run` up to the start of its work: it goes on only with the mutex. -/
  | run (replica : Nat) (event : Event)
  /-- `Finish`, in the foreground or the background, or a failed start: `removeMutex`. -/
  | finish (i : Nat)

namespace State

variable (s : State)

def asked (name : String) : Asked × Locks → State
  | (.answer _, l) => { s with locks := l }
  | (.taken token, l) => { s with locks := l, probes := s.probes ++ [⟨name, token⟩] }

def claim (event : Event) (a : At) : State :=
  match CacheSchedulingMutex.create s.locks s.now event a with
  | (.ok (some token), l) => { s with locks := l, claims := s.claims ++ [⟨event, a, true, s.now, token⟩] }
  | (.ok none, l) => { s with locks := l, claims := s.claims ++ [⟨event, a, false, s.now, 0⟩] }
  | (.error _, l) => { s with locks := l }

def run (replica : Nat) (event : Event) : State :=
  match CacheEventMutex.create (s.held replica) s.locks s.now event with
  | (.ok (some token), h, l) =>
    { s with locks := l, held := Function.update s.held replica h
             runs := s.runs ++ [{ replica, event, token, expires := s.now + event.lifetime.toNat }] }
  | (_, h, l) => { s with locks := l, held := Function.update s.held replica h }

/-- The run gives back what its process holds under the event's name. -/
def finish (i : Nat) (r : Run) : State :=
  match CacheEventMutex.forget (s.held r.replica) s.locks s.now r.event with
  | (h, l) =>
    { s with locks := l, held := Function.update s.held r.replica h, runs := s.runs.set i { r with finished := true } }

def step : Action → Option State
  | .tick d => some { s with now := s.now + d }
  | .claim event a => some (s.claim event a)
  | .askWindow event a =>
    some (s.asked (schedulingMutexName event a) (CacheSchedulingMutex.exists s.locks s.now event a))
  | .askEvent replica event =>
    some (s.asked event.mutexName (CacheEventMutex.exists (s.held replica) s.locks s.now event))
  | .giveBack i =>
    match s.probes[i]? with
    | none => none
    | some p => some { s with locks := s.locks.release s.now p.name p.token, probes := s.probes.eraseIdx i }
  | .run replica event => some (s.run replica event)
  | .finish i =>
    match s.runs[i]? with
    | none => none
    | some r => if r.finished then none else some (s.finish i r)

/-- Nothing claimed and nothing running. -/
def initial (now : Nat) : State := ⟨now, ⟨Table.empty, 0⟩, fun _ _ => none, [], [], []⟩

end State

end Hesape.Scheduling
