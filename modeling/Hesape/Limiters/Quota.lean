import Hesape.Limiters.Duration

/-!
# The quota of a window

A transaction goes through only on the fields that are still there, so it opens a window where there
is none or it has passed, and otherwise counts into the one there is (`acquire_cases`); the grants
since the last opening are then no more than the count, and no more than the limit (`Sound`).
`further` is what the next calls would be granted, and the answers agree with it.

Four edges are left out (`proper`, `Usable`): a limit below one, whose first acquisition is granted all
the same; a lifetime that overflows, with which no window stays; an acquisition that meets a full
window in the very second it ends, where it is still refused; and a `TooManyAttempts` that reads the
fields in a later second than the clock.  `refused_at_the_end` has the first and the third.
-/

namespace Hesape.Limiters.Duration

open Hesape.Redis (Keys)
open Function

/-- How many of the next `k` acquisitions in the second `now` would be granted. -/
def further (l : DurationLimiter) (now : Int) : Nat → Option Window → Nat
  | 0, _ => 0
  | k + 1, entry =>
    let r := l.acquire (fields entry) entry now
    (if r.1.yes then 1 else 0) + further l now k r.2

/-- The limiter grants something, and its windows stay. -/
structure Usable (l : DurationLimiter) : Prop where
  limit : 0 < l.maxLocks
  stays : 0 < l.expire

/-- The calls keep off the edges: the clock is not before 1970, an acquisition does not meet a full window
in the second it ends, and `TooManyAttempts` reads the fields in the second of its clock. -/
def proper (w : World) (s : State) : Action → Bool
  | .next i =>
    match w.calls i, s.places i with
    | .acquire, .read _ _ f => 0 ≤ s.clock && !(w.limiter.maxLocks ≤ f.count && s.clock = f.stop)
    | .tooManyAttempts, .begun _ => 0 ≤ s.clock
    | .tooManyAttempts, .clocked now => now = s.clock
    | _, _ => true
  | .fail _ | .expire | .tick _ => true

/-! ### One transaction -/

section Transaction

variable {l : DurationLimiter} {e : Window} {entry : Option Window} {now clock : Int}

theorem seconds_pos (l : DurationLimiter) : 1 ≤ l.seconds := by
  unfold DurationLimiter.seconds
  split <;> omega

/-- A window as the limiter writes it. -/
structure Window.Good (l : DurationLimiter) (clock : Int) (e : Window) : Prop where
  start : 0 ≤ e.start
  begun : e.start ≤ clock
  stop : e.stop = e.start + l.seconds
  count : 1 ≤ e.count

theorem Window.Good.stop_pos (h : e.Good l clock) : 0 < e.stop := by
  have := seconds_pos l
  have := h.start
  have := h.stop
  omega

theorem Window.Good.fields (h : e.Good l clock) : fields (some e) = e := by
  have := h.start
  have := h.stop_pos
  have := h.count
  simp only [Duration.fields, toInt, if_neg (by omega : ¬e.start < 0), if_neg (by omega : ¬e.stop < 0),
    if_neg (by omega : ¬e.count < 0)]

/-- **What a transaction does**: it opens a window, or it counts into one the clock is in. -/
theorem acquire_cases (hu : Usable l) (hgood : ∀ e, entry = some e → e.Good l now) :
    (passed (fields entry) now ∧
      l.acquire (fields entry) entry now
        = (⟨true, now + l.seconds, l.maxLocks - 1⟩, some ⟨now, now + l.seconds, 1⟩)) ∨
    (passed (fields entry) now = false ∧ ∃ e, entry = some e ∧ e.Good l now ∧ now ≤ e.stop ∧
      l.acquire (fields entry) entry now
        = (⟨e.count + 1 ≤ l.maxLocks, e.stop, max 0 (l.maxLocks - (e.count + 1))⟩,
          some { e with count := e.count + 1 })) := by
  unfold DurationLimiter.acquire
  cases hp : passed (fields entry) now with
  | true => exact .inl ⟨rfl, by rw [if_pos rfl, if_pos hu.stays]⟩
  | false =>
    refine .inr ⟨rfl, ?_⟩
    cases entry with
    | none => cases hp
    | some e =>
      have he := hgood e rfl
      rw [he.fields] at hp ⊢
      have hle : now ≤ e.stop := by
        simp only [passed, Bool.or_eq_false_iff, decide_eq_false_iff_not] at hp
        omega
      exact ⟨e, rfl, he, hle, rfl⟩

/-- A window that counts one more is as good. -/
theorem Window.Good.more (h : e.Good l clock) : Window.Good l clock { e with count := e.count + 1 } :=
  ⟨h.start, h.begun, h.stop, by have := h.count; show 1 ≤ e.count + 1; omega⟩

theorem good_opened (hnow : 0 ≤ now) : Window.Good l now ⟨now, now + l.seconds, 1⟩ :=
  ⟨hnow, Int.le_refl _, rfl, Int.le_refl _⟩

/-- What is granted in a window the clock is in. -/
theorem further_open (hu : Usable l) : ∀ {k : Nat} {e : Window}, e.Good l now → now ≤ e.stop →
    (further l now k (some e) : Int) = min (k : Int) (max 0 (l.maxLocks - e.count)) := by
  intro k
  induction k with
  | zero =>
    intro e _ _
    have : (further l now 0 (some e) : Int) = 0 := rfl
    omega
  | succ k ih =>
    intro e hgood hle
    have hfields := hgood.fields
    have hsome : ∀ e', some e = some e' → e'.Good l now := fun _ he => Option.some.inj he ▸ hgood
    rcases acquire_cases hu hsome with ⟨hp, -⟩ | ⟨-, e', he, -, -, hr⟩
    · have := hgood.begun
      have := hgood.stop_pos
      simp only [hfields, passed, Bool.or_eq_true, decide_eq_true_eq] at hp
      omega
    · cases he
      have hrest := ih hgood.more hle
      rw [further, hr]
      dsimp only at hrest ⊢
      by_cases hc : e.count + 1 ≤ l.maxLocks
      · rw [if_pos (decide_eq_true hc)]
        push_cast
        omega
      · rw [if_neg (by simpa using hc)]
        push_cast
        omega

/-- What is granted where a window is to be opened. -/
theorem further_passed (hu : Usable l) (hgood : ∀ e, entry = some e → e.Good l now) (hnow : 0 ≤ now)
    (hp : passed (fields entry) now) (k : Nat) : (further l now k entry : Int) = min (k : Int) l.maxLocks := by
  have := hu.limit
  cases k with
  | zero =>
    have : (further l now 0 entry : Int) = 0 := rfl
    omega
  | succ k =>
    rcases acquire_cases hu hgood with ⟨-, hr⟩ | ⟨hp', -⟩
    · have hrest := further_open hu (k := k) (good_opened (l := l) hnow)
        (by have := seconds_pos l; show now ≤ now + l.seconds; omega)
      rw [further, hr]
      dsimp only at hrest ⊢
      rw [if_pos rfl]
      push_cast
      omega
    · rw [hp] at hp'
      cases hp'

end Transaction

/-! ### One step of a call -/

/-- The state after the transaction of an acquisition went through. -/
def State.commit (s : State) (w : World) (i : Nat) (f : Window) (now : Int) : State where
  store := s.store.write w.key (w.limiter.acquire f (w.entry s) now).2
  clock := s.clock
  places := Function.update s.places i (.answered now (w.limiter.acquire f (w.entry s) now).1)
  grants := counted s.grants f now (w.limiter.acquire f (w.entry s) now).1

/-- What the next step of a call can be. -/
inductive Next (w : World) (s : State) (i : Nat) : State → Prop
  | watch (retries : Nat) (call : w.calls i = .acquire) (place : s.places i = .begun retries) :
      Next w s i (s.go i (.watched retries (w.version s)))
  | read (retries version : Nat) (call : w.calls i = .acquire) (place : s.places i = .watched retries version) :
      Next w s i (s.go i (.read retries version (fields (w.entry s))))
  | time (retries version : Nat) (f : Window) (call : w.calls i = .acquire)
      (place : s.places i = .read retries version f) : Next w s i (s.go i (.timed retries version f s.clock))
  | commit (retries : Nat) (f : Window) (now : Int) (call : w.calls i = .acquire)
      (place : s.places i = .timed retries (w.version s) f now) : Next w s i (s.commit w i f now)
  | retry (retries version : Nat) (f : Window) (now : Int) (call : w.calls i = .acquire)
      (place : s.places i = .timed retries version f now) (moved : w.version s ≠ version) :
      Next w s i (s.go i (if retries = 0 then .failed else .begun (retries - 1)))
  | clock (retries : Nat) (call : w.calls i = .tooManyAttempts) (place : s.places i = .begun retries) :
      Next w s i (s.go i (.clocked s.clock))
  | peek (now : Int) (call : w.calls i = .tooManyAttempts) (place : s.places i = .clocked now) :
      Next w s i (s.go i (.answered now (w.limiter.tooManyAttempts (fields (w.entry s)) now)))
  | clear (retries : Nat) (call : w.calls i = .clear) (place : s.places i = .begun retries) :
      Next w s i { s.go i .cleared with
        store := if (w.entry s).isSome then s.store.write w.key none else s.store }

theorem next_of_step {w : World} {s u : State} {i : Nat} (h : step w s (.next i) = some u) : Next w s i u := by
  unfold step at h
  dsimp only at h
  cases hc : w.calls i <;> cases hp : s.places i <;> simp only [hc, hp] at h
  case acquire.timed retries version f now =>
    split at h
    · next hv =>
      cases h
      exact .commit retries f now hc (hv ▸ hp)
    · next hv =>
      cases h
      exact .retry retries version f now hc hp hv
  all_goals cases h
  case acquire.begun retries => exact .watch retries hc hp
  case acquire.watched retries version => exact .read retries version hc hp
  case acquire.read retries version f => exact .time retries version f hc hp
  case tooManyAttempts.begun retries => exact .clock retries hc hp
  case tooManyAttempts.clocked now => exact .peek now hc hp
  case clear.begun retries => exact .clear retries hc hp

/-- A step that answers is a transaction that went through or the read of `TooManyAttempts`. -/
theorem answered_of_step {w : World} {s u : State} {i : Nat} {now : Int} {answer : Answer}
    (h : step w s (.next i) = some u) (hi : u.places i = .answered now answer) :
    (∃ retries f, w.calls i = .acquire ∧ s.places i = .timed retries (w.version s) f now ∧
      u = s.commit w i f now ∧ answer = (w.limiter.acquire f (w.entry s) now).1) ∨
    (w.calls i = .tooManyAttempts ∧ s.places i = .clocked now ∧ w.entry u = w.entry s ∧
      answer = w.limiter.tooManyAttempts (fields (w.entry s)) now) := by
  have hplace : ∀ {p : Place}, update s.places i p i = .answered now answer → p = .answered now answer :=
    fun hp => (update_self ..).symm.trans hp
  cases next_of_step h with
  | watch | read | time | clock | clear => cases hplace hi
  | retry =>
    have := hplace hi
    split at this <;> cases this
  | commit retries f _ call place =>
    obtain ⟨rfl, rfl⟩ := Place.answered.inj (hplace hi)
    exact .inl ⟨retries, f, call, place, rfl, rfl⟩
  | peek _ call place =>
    obtain ⟨rfl, rfl⟩ := Place.answered.inj (hplace hi)
    exact .inr ⟨call, place, rfl, rfl⟩

theorem entry_commit (w : World) (s : State) (i : Nat) (f : Window) (now : Int) :
    w.entry (s.commit w i f now) = (w.limiter.acquire f (w.entry s) now).2 :=
  Keys.entries_write_self

section Proper

variable {w : World} {s : State} {i : Nat}

variable (h : proper w s (.next i) = true)
include h

theorem proper_time {retries version : Nat} {f : Window}
    (call : w.calls i = .acquire) (place : s.places i = .read retries version f) :
    0 ≤ s.clock ∧ (f.count < w.limiter.maxLocks ∨ s.clock ≠ f.stop) := by
  simpa [proper, call, place] using h

theorem proper_clock {retries : Nat} (call : w.calls i = .tooManyAttempts)
    (place : s.places i = .begun retries) : 0 ≤ s.clock := by
  simpa [proper, call, place] using h

theorem proper_peek {now : Int} (call : w.calls i = .tooManyAttempts)
    (place : s.places i = .clocked now) : now = s.clock := by
  simpa [proper, call, place] using h

end Proper

/-! ### Every state -/

/-- What a place says of the state: a count that has not moved says that the fields that were read are
still there. -/
def Place.Fits (w : World) (s : State) : Place → Prop
  | .watched _ v => v ≤ w.version s
  | .read _ v f => v ≤ w.version s ∧ (w.version s = v → f = fields (w.entry s))
  | .timed _ v f now => v ≤ w.version s ∧ 0 ≤ now ∧ now ≤ s.clock ∧
      (w.version s = v → f = fields (w.entry s) ∧ ∀ e, w.entry s = some e → e.Good w.limiter now)
  | .clocked now => 0 ≤ now
  | .begun _ | .answered _ _ | .cleared | .failed => True

/-- The grants of the window are within its count and the limit. -/
structure Sound (w : World) (s : State) : Prop where
  window : ∀ e, w.entry s = some e → e.Good w.limiter s.clock ∧ (s.grants : Int) ≤ e.count
  quota : (s.grants : Int) ≤ w.limiter.maxLocks
  fits : ∀ i, (s.places i).Fits w s

section Sound

variable {w : World} {s u : State} {i : Nat} {p : Place}

theorem sound_initial (hu : Usable w.limiter) : Sound w w.initial :=
  ⟨nofun, Int.le_of_lt hu.limit, fun _ => trivial⟩

/-- A write of the key moves its count past what anybody watched. -/
theorem Place.Fits.write (h : p.Fits w s) (v : Option Window) (places : Nat → Place) (grants : Nat) :
    p.Fits w ⟨s.store.write w.key v, s.clock, places, grants⟩ := by
  have hversion : w.version ⟨s.store.write w.key v, s.clock, places, grants⟩ = w.version s + 1 :=
    Keys.versions_write_self
  cases p with
  | watched r n =>
    have h : n ≤ w.version s := h
    show n ≤ w.version _
    omega
  | read =>
    have hle := h.1
    exact ⟨by omega, fun hn => absurd hn (by omega)⟩
  | timed =>
    have hle := h.1
    exact ⟨by omega, h.2.1, h.2.2.1, fun hn => absurd hn (by omega)⟩
  | clocked => exact h
  | begun | answered | cleared | failed => trivial

theorem Place.Fits.tick (h : p.Fits w s) (d : Nat) : p.Fits w { s with clock := s.clock + d } := by
  cases p with
  | timed r n f now =>
    refine ⟨h.1, h.2.1, ?_, h.2.2.2⟩
    have := h.2.2.1
    show now ≤ s.clock + d
    omega
  | watched | read | clocked | begun | answered | cleared | failed => exact h

theorem Sound.go (h : Sound w s) (hp : p.Fits w s) : Sound w (s.go i p) :=
  ⟨h.window, h.quota,
    (forall_update_iff s.places fun _ q => q.Fits w s).mpr ⟨hp, fun j _ => h.fits j⟩⟩

/-- A place that says nothing. -/
def Place.free : Place → Bool
  | .begun _ | .answered _ _ | .cleared | .failed => true
  | .watched _ _ | .read _ _ _ | .timed _ _ _ _ | .clocked _ => false

theorem Place.Fits.of_free (h : p.free) : p.Fits w s := by
  cases p with
  | begun | answered | cleared | failed => trivial
  | watched | read | timed | clocked => cases h

theorem update_free (hp : p.free) (j : Nat) :
    update s.places i p j = s.places j ∨ (update s.places i p j).free := by
  by_cases hj : j = i
  · subst hj
    exact .inr ((congrArg Place.free (update_self ..)).trans hp)
  · exact .inl (update_of_ne hj ..)

variable {places : Nat → Place}

/-- A write of the key, where nobody comes to a place that says anything. -/
theorem Sound.write (h : Sound w s) {v : Option Window} {grants : Nat}
    (hv : ∀ e, v = some e → e.Good w.limiter s.clock ∧ (grants : Int) ≤ e.count)
    (hquota : (grants : Int) ≤ w.limiter.maxLocks)
    (hplaces : ∀ j, places j = s.places j ∨ (places j).free) :
    Sound w ⟨s.store.write w.key v, s.clock, places, grants⟩ := by
  refine ⟨fun e he => hv e (Keys.entries_write_self.symm.trans he), hquota, fun j => ?_⟩
  rcases hplaces j with hj | hj
  · show (places j).Fits w _
    rw [hj]
    exact (h.fits j).write v places grants
  · exact .of_free hj

theorem Sound.removed (h : Sound w s)
    (hplaces : ∀ j, places j = s.places j ∨ (places j).free) :
    Sound w ⟨s.store.write w.key none, s.clock, places, s.grants⟩ := by
  refine h.write ?_ h.quota hplaces
  rintro e ⟨⟩

/-- The transaction of an acquisition. -/
theorem Sound.commit (hu : Usable w.limiter) (h : Sound w s) {retries : Nat} {f : Window} {now : Int}
    (hplace : s.places i = .timed retries (w.version s) f now) :
    Sound w (s.commit w i f now) := by
  unfold State.commit
  have hfits := h.fits i
  rw [hplace] at hfits
  obtain ⟨-, hnow, hclock, hsame⟩ := hfits
  obtain ⟨rfl, hgood⟩ := hsame rfl
  have hlimit := hu.limit
  rcases acquire_cases hu hgood with ⟨hp, hr⟩ | ⟨hp, e, he, -, -, hr⟩
  · rw [hr, counted, if_pos hp]
    refine h.write ?_ (by omega) (update_free rfl)
    rintro _ ⟨⟩
    exact ⟨⟨hnow, hclock, rfl, Int.le_refl _⟩, Int.le_refl _⟩
  · obtain ⟨hegood, _⟩ := h.window e he
    rw [hr, counted, if_neg (by rw [hp]; nofun)]
    refine h.write ?_ ?_ (update_free rfl)
    · rintro _ ⟨⟩
      refine ⟨hegood.more, ?_⟩
      show _ ≤ e.count + 1
      split <;> push_cast <;> omega
    · have hquota := h.quota
      split
      · next hyes =>
        have : e.count + 1 ≤ w.limiter.maxLocks := of_decide_eq_true hyes
        push_cast
        omega
      · exact hquota

theorem Window.Good.later {l : DurationLimiter} {e : Window} {clock clock' : Int} (h : e.Good l clock)
    (hle : clock ≤ clock') : e.Good l clock' :=
  ⟨h.start, Int.le_trans h.begun hle, h.stop, h.count⟩

theorem sound_step (hu : Usable w.limiter) (h : Sound w s) {a : Action} (hok : proper w s a)
    (hs : step w s a = some u) : Sound w u := by
  cases a with
  | tick d =>
    cases hs
    refine ⟨fun e he => ?_, h.quota, fun j => (h.fits j).tick d⟩
    obtain ⟨hgood, hgrants⟩ := h.window e he
    exact ⟨hgood.later (by show s.clock ≤ s.clock + d; omega), hgrants⟩
  | expire =>
    rw [step] at hs
    split at hs
    · cases hs
      exact h.removed fun _ => .inl rfl
    · cases hs
  | fail =>
    cases hs
    exact h.go trivial
  | next i =>
    have hfits := h.fits i
    cases next_of_step hs with
    | watch => exact h.go (Nat.le_refl _)
    | read _ _ _ place =>
      rw [place] at hfits
      exact h.go ⟨hfits, fun _ => rfl⟩
    | time _ _ f call place =>
      rw [place] at hfits
      exact h.go ⟨hfits.1, (proper_time hok call place).1, Int.le_refl _,
        fun hv => ⟨hfits.2 hv, fun e he => (h.window e he).1⟩⟩
    | commit _ f _ _ place => exact h.commit hu place
    | retry =>
      refine h.go (.of_free ?_)
      split <;> rfl
    | clock _ call place => exact h.go (proper_clock hok call place)
    | peek => exact h.go trivial
    | clear =>
      split
      · exact h.removed (update_free rfl)
      · exact h.go trivial

end Sound

/-! ### What the answers say -/

section Answers

variable {w : World} {s u : State} {i : Nat}

variable (hu : Usable w.limiter)
include hu

variable {answer : Answer} {now : Int}

/-- The next acquisitions are granted as the answer says. -/
theorem Sound.remaining (h : Sound w s) (hok : proper w s (.next i))
    (hs : step w s (.next i) = some u) (hi : u.places i = .answered now answer)
    (k : Nat) : (further w.limiter now k (w.entry u) : Int) = min (k : Int) answer.remaining := by
  have hfits := h.fits i
  rcases answered_of_step hs hi with ⟨_, f, -, place, rfl, rfl⟩ | ⟨call, place, hentry, rfl⟩
  · rw [place] at hfits
    obtain ⟨-, hnow, -, hsame⟩ := hfits
    obtain ⟨rfl, hgood⟩ := hsame rfl
    rw [entry_commit]
    rcases acquire_cases hu hgood with ⟨-, hr⟩ | ⟨-, e, -, hegood, hle, hr⟩
    · have hseconds := seconds_pos w.limiter
      have hlimit := hu.limit
      rw [hr]
      refine (further_open hu (good_opened hnow) (by show now ≤ now + _; omega)).trans ?_
      dsimp only
      omega
    · rw [hr]
      exact further_open hu hegood.more hle
  · rw [place] at hfits
    obtain rfl := proper_peek hok call place
    have hgood : ∀ e, w.entry s = some e → e.Good w.limiter s.clock := fun e he => (h.window e he).1
    rw [hentry]
    unfold DurationLimiter.tooManyAttempts
    rcases acquire_cases hu hgood with ⟨hp, -⟩ | ⟨hp, e, he, hegood, hle, -⟩
    · rw [if_pos hp]
      exact further_passed hu hgood hfits hp k
    · rw [if_neg (by rw [hp]; nofun), he, hegood.fields]
      exact further_open hu hegood hle

/-- `TooManyAttempts` says what an acquisition would be told. -/
theorem Sound.peek (h : Sound w s) (hok : proper w s (.next i))
    (call : w.calls i = .tooManyAttempts) (hs : step w s (.next i) = some u)
    (hi : u.places i = .answered now answer) :
    answer.yes ↔ (w.limiter.acquire (fields (w.entry s)) (w.entry s) s.clock).1.yes = false := by
  rcases answered_of_step hs hi with ⟨-, -, call', -⟩ | ⟨-, place, -, rfl⟩
  · cases call.symm.trans call'
  · obtain rfl := proper_peek hok call place
    have hgood : ∀ e, w.entry s = some e → e.Good w.limiter s.clock := fun e he => (h.window e he).1
    unfold DurationLimiter.tooManyAttempts
    rcases acquire_cases hu hgood with ⟨hp, hr⟩ | ⟨hp, e, he, hegood, -, hr⟩
    · rw [if_pos hp, hr]
      exact ⟨nofun, nofun⟩
    · rw [if_neg (by rw [hp]; nofun), hr, he, hegood.fields]
      simp only [decide_eq_true_eq, decide_eq_false_iff_not]
      omega

/-- A refusal leaves a full window that ends when it says. -/
theorem Sound.refused (h : Sound w s) (call : w.calls i = .acquire)
    (hs : step w s (.next i) = some u) (hi : u.places i = .answered now answer)
    (hno : answer.yes = false) :
    ∃ e, w.entry u = some e ∧ w.limiter.maxLocks ≤ e.count ∧ e.stop = answer.decaysAt := by
  have hfits := h.fits i
  rcases answered_of_step hs hi with ⟨_, f, -, place, rfl, rfl⟩ | ⟨call', -⟩
  · rw [place] at hfits
    obtain ⟨rfl, hgood⟩ := hfits.2.2.2 rfl
    rw [entry_commit]
    rcases acquire_cases hu hgood with ⟨-, hr⟩ | ⟨-, e, -, -, -, hr⟩
    · rw [hr] at hno
      cases hno
    · rw [hr] at hno ⊢
      have : ¬e.count + 1 ≤ w.limiter.maxLocks := of_decide_eq_false hno
      exact ⟨_, rfl, by show _ ≤ e.count + 1; omega, rfl⟩
  · cases call.symm.trans call'

end Answers

/-! ### Coming back -/

/-- The actions of one call, and what happens by itself. -/
def alone (j : Nat) : Action → Bool
  | .next i => i = j
  | .fail _ => false
  | .expire | .tick _ => true

/-- A call comes back after a refusal that left the full window `e`. -/
structure Comes (w : World) (e : Window) (j : Nat) (t : State) : Prop where
  entry : (∀ now answer, t.places j ≠ .answered now answer) → w.entry t = none ∨ w.entry t = some e
  timed : ∀ retries version f now, t.places j = .timed retries version f now → f = e → now ≠ e.stop
  answered : ∀ now answer, t.places j = .answered now answer → e.stop ≤ now → answer.yes = true

section Comes

variable {w : World} {e : Window} {j : Nat} {t u : State}

/-- A step that leaves the hash alone and gives no answer. -/
theorem Comes.go (h : Comes w e j t) (hplace : ∀ now answer, t.places j ≠ .answered now answer) {p : Place}
    (htimed : ∀ retries version f now, p = .timed retries version f now → f = e → now ≠ e.stop)
    (hnot : ∀ now answer, p ≠ .answered now answer) : Comes w e j (t.go j p) := by
  have hself : (t.go j p).places j = p := update_self ..
  refine ⟨fun _ => h.entry hplace, fun retries version f now ht => ?_, fun now answer ht => ?_⟩
  · exact htimed retries version f now (hself.symm.trans ht)
  · exact absurd (hself.symm.trans ht) (hnot now answer)

theorem Comes.step (hfull : w.limiter.maxLocks ≤ e.count) (call : w.calls j = .acquire)
    (h : Comes w e j t) (hsound : Sound w t) {a : Action} (hok : proper w t a) (halone : alone j a)
    (hs : Duration.step w t a = some u) : Comes w e j u := by
  cases a with
  | fail => cases halone
  | tick =>
    cases hs
    exact ⟨h.entry, h.timed, h.answered⟩
  | expire =>
    rw [Duration.step] at hs
    split at hs
    · cases hs
      exact ⟨fun _ => .inl Keys.entries_write_self, h.timed, h.answered⟩
    · cases hs
  | next i =>
    obtain rfl : i = j := of_decide_eq_true halone
    have hfits := hsound.fits i
    cases next_of_step hs with
    | watch _ _ place | read _ _ _ place => exact h.go (by rw [place]; nofun) nofun nofun
    | time _ _ f _ place =>
      refine h.go (by rw [place]; nofun) ?_ nofun
      rintro _ _ _ _ ⟨⟩ rfl
      have := (proper_time hok call place).2
      omega
    | retry _ _ f _ _ place =>
      refine h.go (by rw [place]; nofun) ?_ ?_
      · intro _ _ _ _ hp
        split at hp <;> cases hp
      · intro _ _ hp
        split at hp <;> cases hp
    | commit _ f now _ place =>
      have hself : (t.commit w i f now).places i = .answered now (w.limiter.acquire f (w.entry t) now).1 :=
        update_self ..
      refine ⟨fun hnot => absurd hself (hnot _ _), fun _ _ _ _ ht => ?_, fun now' answer ht hle => ?_⟩
      · cases hself.symm.trans ht
      · obtain ⟨rfl, rfl⟩ := Place.answered.inj (hself.symm.trans ht)
        rw [place] at hfits
        obtain ⟨hf, hgood⟩ := hfits.2.2.2 rfl
        have hpassed : passed f now := by
          rcases h.entry (by rw [place]; nofun) with hentry | hentry
          · rw [hf, hentry]
            rfl
          · rw [hentry, (hgood e hentry).fields] at hf
            have := h.timed _ _ _ _ place hf
            rw [hf]
            simp only [passed, Bool.or_eq_true, decide_eq_true_eq]
            omega
        unfold DurationLimiter.acquire
        rw [if_pos hpassed]
    | clock _ call' | peek _ call' | clear _ call' => cases call.symm.trans call'

end Comes

/-! ### The limiter -/

/-- What the limiter promises of a state. -/
structure Honest (w : World) (s : State) : Prop where
  /-- The acquisitions granted since the last window was opened. -/
  quota : (s.grants : Int) ≤ max 0 w.limiter.maxLocks
  /-- `TooManyAttempts` is answered true when an acquisition in its place would be refused. -/
  peek : ∀ i u now answer, w.calls i = .tooManyAttempts → proper w s (.next i) = true →
    step w s (.next i) = some u → u.places i = .answered now answer →
    (answer.yes = true ↔ (w.limiter.acquire (fields (w.entry s)) (w.entry s) s.clock).1.yes = false)
  /-- `Remaining` is how many of the next acquisitions would be granted. -/
  remaining : ∀ i u now answer, proper w s (.next i) = true → step w s (.next i) = some u →
    u.places i = .answered now answer →
    ∀ k : Nat, (further w.limiter now k (w.entry u) : Int) = min (k : Int) answer.remaining
  /-- After a refusal, an acquisition whose clock reads `DecaysAt` or later is granted, if it is the next
  call. -/
  back : ∀ i u now answer, w.calls i = .acquire → proper w s (.next i) = true → step w s (.next i) = some u →
    u.places i = .answered now answer → answer.yes = false → ∀ j, w.calls j = .acquire → u.places j = .begun 9 →
    ∀ t, Run.Reach (step w) (fun s a => proper w s a && alone j a) u t → ∀ now' answer',
    t.places j = .answered now' answer' → answer.decaysAt ≤ now' → answer'.yes = true
  /-- An acquisition that performs its steps is answered. -/
  answers : ∀ j retries, w.calls j = .acquire → s.places j = .begun retries → ∃ t answer,
    Run.follow (step w) (fun _ _ => true) s (List.replicate 4 (.next j)) = some t ∧
      t.places j = .answered s.clock answer

/-- **The duration limiter grants its quota and its answers are usable**, off the edges. -/
theorem limiter_honest {w : World} (hu : Usable w.limiter) {s : State}
    (h : Run.Reach (step w) (proper w) w.initial s) : Honest w s := by
  have hsound : Sound w s := h.invariant (sound_initial hu) fun _ _ _ hs hok hstep => sound_step hu hs hok hstep
  refine ⟨Int.le_trans hsound.quota (Int.le_max_right ..), ?_, ?_, ?_, fun j retries call hj => ?_⟩
  · intro i u now answer call hok hs hi
    exact hsound.peek hu hok call hs hi
  · intro i u now answer hok hs hi k
    exact hsound.remaining hu hok hs hi k
  · intro i u now answer call hok hs hi hno j callj hj t hreach now' answer' ht hle
    obtain ⟨e, he, hfull, hstop⟩ := hsound.refused hu call hs hi hno
    have hcomes : Comes w e j u := ⟨fun _ => .inr he, by rw [hj]; nofun, by rw [hj]; nofun⟩
    obtain ⟨hcomes, -⟩ := hreach.invariant (I := fun t => Comes w e j t ∧ Sound w t)
      ⟨hcomes, sound_step hu hsound hok hs⟩ fun t a v ht hok hs => by
        obtain ⟨hok, halone⟩ := Bool.and_eq_true_iff.mp hok
        exact ⟨ht.1.step hfull callj ht.2 hok halone hs, sound_step hu ht.2 hok hs⟩
    exact hcomes.answered now' answer' ht (hstop ▸ hle)
  · simp [Run.follow, List.replicate, step, call, hj, State.go, World.version]

/-- Calls of a limiter of one-second windows; the fourth asks without taking. -/
def perSecond (limit start : Int) : World where
  limiter := ⟨limit, second⟩
  key := "reports"
  calls i := if i = 3 then .tooManyAttempts else .acquire
  start := start

/-- Two acquisitions of which the second is refused, and a third in the next window. -/
theorem limiter_honest_in_turn : ∃ s, s.grants = 1 ∧ s.clock = 2 ∧ Honest (perSecond 1 0) s := by
  obtain ⟨s, hs, h1, h2⟩ : ∃ s, Run.Reach (step (perSecond 1 0)) (proper (perSecond 1 0)) (perSecond 1 0).initial s ∧
      s.grants = 1 ∧ s.clock = 2 :=
    Run.exists_reach (List.replicate 4 (.next 0) ++ List.replicate 4 (.next 1) ++ .tick 2 ::
      List.replicate 4 (.next 2)) (by decide +kernel)
  exact ⟨s, h1, h2, limiter_honest ⟨by decide, by decide⟩ hs⟩

/-- With a limit of zero the first acquisition is granted.  With a limit of one, an acquisition that was
refused until the second `6` is refused in the second `6`, too.  And a `TooManyAttempts` that read the clock
before the window was opened says no, where an acquisition is refused. -/
theorem refused_at_the_end :
    ((Run.follow (step (perSecond 0 5)) (fun _ _ => true) (perSecond 0 5).initial (List.replicate 4 (.next 0))).any
      fun s => s.grants = 1) = true ∧
    ((Run.follow (step (perSecond 1 5)) (fun _ _ => true) (perSecond 1 5).initial
      (List.replicate 4 (.next 0) ++ List.replicate 4 (.next 1) ++ .tick 1 :: List.replicate 4 (.next 2))).any
      fun s => s.places 1 = .answered 5 ⟨false, 6, 0⟩ ∧ s.places 2 = .answered 6 ⟨false, 6, 0⟩) = true ∧
    ((Run.follow (step (perSecond 1 5)) (fun _ _ => true) (perSecond 1 5).initial
      (.next 3 :: .tick 1 :: List.replicate 4 (.next 0) ++ .next 3 :: List.replicate 4 (.next 1))).any
      fun s => s.places 3 = .answered 5 ⟨false, 6, 1⟩ ∧ s.places 1 = .answered 6 ⟨false, 7, 0⟩) = true := by
  decide +kernel

end Hesape.Limiters.Duration
