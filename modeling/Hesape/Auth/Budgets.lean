import Hesape.Auth.Throttle
import Hesape.Run.Reach

/-!
# What the throttle shows, and the books

What a throttle answers depends only on the budgets it shows: under each key the count and the reset
of a counter that is not over, or nothing (`seen`).  Sweeping shows the same, and every call acts on
the budgets of its own two keys.

The books say the same without counters.  `Refund` and `Clear` name a key and not a window, so the
two agree as long as the window that is open under the key, if one is, is the one the sign-in is
counted in (`proper`): a unit given back to a later window is a unit that window never had.  Then
every key shows who is counted in its window, which is never more than its budget (`Kept`).
-/

namespace Hesape.Auth

open Hesape.Text (colon_inj append_left_inj append_ne_of_take)
open List
open Function

/-! ### Keys -/

theorem pairKey_ne_clientKey (t f c t' c' : String) : pairKey t f c ≠ clientKey t' c' :=
  append_ne_of_take 7 (by decide) _ _

theorem World.pair_ne_client (w : World) (i j : Nat) : w.pair i ≠ w.client j :=
  pairKey_ne_clientKey _ _ _ _ _

theorem World.tenant_of_pair {w : World} {i j : Nat} (h : w.pair i = w.pair j) :
    (w.signIns i).tenant = (w.signIns j).tenant :=
  (colon_inj (validTenant_colon (w.signIns i).valid) (validTenant_colon (w.signIns j).valid)
    (append_left_inj h)).1

theorem World.tenant_of_client {w : World} {i j : Nat} (h : w.client i = w.client j) :
    (w.signIns i).tenant = (w.signIns j).tenant :=
  (colon_inj (validTenant_colon (w.signIns i).valid) (validTenant_colon (w.signIns j).valid)
    (append_left_inj h)).1

/-- The budget of a key. -/
def World.limit (w : World) (key : String) : Int :=
  if key.toList.head? = some 's' then w.policy.maxFailures else w.policy.maxFailuresPerClient

theorem World.limit_pair (w : World) (i : Nat) : w.limit (w.pair i) = w.policy.maxFailures := by
  rw [limit, pair, pairKey, String.toList_append]
  rfl

theorem World.limit_client (w : World) (i : Nat) : w.limit (w.client i) = w.policy.maxFailuresPerClient := by
  rw [limit, client, clientKey, String.toList_append]
  rfl

theorem World.limit_pos (w : World) (key : String) : 0 < w.limit key := by
  unfold limit
  split
  · exact w.policy.maxFailures_pos
  · exact w.policy.maxFailuresPerClient_pos

/-! ### What a call leaves under a key -/

section Lookup

variable {m : MemoryThrottle} {policy : ThrottlePolicy} {k k' : String} {now limit : Int} {c : FailureCount}

theorem lookup_foldl_erase (p : String → Bool) (k : String) : ∀ (ks : List String) (t : Counters),
    (ks.foldl (fun t k => if p k then t.erase k else t) t).lookup k
      = if k ∈ ks ∧ p k = true then none else t.lookup k := by
  intro ks
  induction ks with
  | nil =>
    intro t
    simp
  | cons x _ ih =>
    intro t
    rw [foldl_cons, ih]
    by_cases hk : k = x
    · subst hk
      cases hp : p k <;> simp
    · have hlookup : (if p x then t.erase x else t).lookup k = t.lookup k := by
        split
        · exact AList.lookup_erase_ne hk
        · rfl
      rw [hlookup]
      simp [hk]

theorem lookup_dropUpTo : (m.dropUpTo now).lookup k = if m.ended now k then none else m.counters.lookup k := by
  rw [MemoryThrottle.dropUpTo, lookup_foldl_erase]
  by_cases hover : m.ended now k
  · have hmem : k ∈ m.counters.keys := by
      obtain ⟨c, hc, -⟩ := (Option.any_eq_true _ _).mp hover
      exact AList.mem_keys.mp (AList.lookup_isSome.mp (Option.isSome_iff_exists.mpr ⟨c, hc⟩))
    rw [if_pos ⟨hmem, hover⟩, if_pos hover]
  · rw [if_neg (fun h => hover h.2), if_neg hover]

theorem evict_of_le (order : List String) {t : Counters} (h : t.keys.length ≤ maxTrackedSignIns - 2) :
    MemoryThrottle.evict order t = t := by
  induction order with
  | nil => rfl
  | cons k _ ih =>
    rw [MemoryThrottle.evict, foldl_cons, if_pos h]
    exact ih

/-- There is room in the table for what an attempt adds. -/
def room (m : MemoryThrottle) (policy : ThrottlePolicy) (now : Int) : Bool :=
  (m.swept policy now).counters.keys.length ≤ maxTrackedSignIns - 2

theorem trim_of_room (h : room m policy now) (order : List String) :
    m.trim policy now order = m.swept policy now := by
  rw [MemoryThrottle.trim, evict_of_le order (of_decide_eq_true h)]

/-- A sweep adds nothing. -/
theorem lookup_of_swept (h : (m.swept policy now).counters.lookup k = some c) : m.counters.lookup k = some c := by
  unfold MemoryThrottle.swept at h
  split at h
  · have h := lookup_dropUpTo.symm.trans h
    split at h
    · cases h
    · exact h
  · exact h

/-- A sweep leaves what is not over. -/
theorem lookup_swept (h : m.counters.lookup k = some c) (hlive : now < c.reset) :
    (m.swept policy now).counters.lookup k = some c := by
  unfold MemoryThrottle.swept
  split
  · refine lookup_dropUpTo.trans ?_
    have hover : ¬m.ended now k := by
      rw [MemoryThrottle.ended, h]
      simpa using hlive
    rw [if_neg hover]
    exact h
  · exact h

/-- The counter a unit goes to is the one that is there and not over, or a new one. -/
theorem current_cases (m : MemoryThrottle) (policy : ThrottlePolicy) (k : String) (now : Int) :
    (m.counters.lookup k = some (m.current policy k now) ∧ now < (m.current policy k now).reset) ∨
    (m.current policy k now = ⟨0, now + policy.window⟩ ∧
      ∀ c, m.counters.lookup k = some c → ¬now < c.reset) := by
  unfold MemoryThrottle.current
  cases hl : m.counters.lookup k with
  | none => exact .inr ⟨rfl, nofun⟩
  | some =>
    dsimp only
    split
    · next h => exact .inl ⟨rfl, h⟩
    · next h => exact .inr ⟨rfl, by rintro _ ⟨⟩; exact h⟩

theorem lookup_count : (m.count policy k limit now).counters.lookup k
    = some ((m.current policy k now).more limit policy.lockout now) :=
  AList.lookup_insert ..

theorem lookup_count_of_ne (h : k' ≠ k) :
    (m.count policy k limit now).counters.lookup k' = m.counters.lookup k' :=
  AList.lookup_insert_ne h

theorem lookup_giveBack_of_ne (h : k' ≠ k) : (m.giveBack k).counters.lookup k' = m.counters.lookup k' := by
  unfold MemoryThrottle.giveBack
  cases m.counters.lookup k with
  | none => rfl
  | some =>
    dsimp only
    split
    · exact AList.lookup_erase_ne h
    · exact AList.lookup_insert_ne h

theorem lookup_giveBack : (m.giveBack k).counters.lookup k
    = (m.counters.lookup k).bind fun c => if c.count - 1 ≤ 0 then none else some { c with count := c.count - 1 } := by
  unfold MemoryThrottle.giveBack
  cases hl : m.counters.lookup k with
  | none => exact hl
  | some =>
    dsimp only [Option.bind_some]
    split
    · exact AList.lookup_erase ..
    · exact AList.lookup_insert ..

end Lookup

/-! ### What a throttle shows -/

/-- The count and the reset of a counter that is not over. -/
abbrev Budget := Option (Int × Int)

namespace Budget

def spent (limit now : Int) : Budget → Option Int
  | none => none
  | some (n, reset) => if n < limit then none else some (reset - now)

def count (policy : ThrottlePolicy) (limit now : Int) (b : Budget) : Budget :=
  let (n, reset) := b.getD (0, now + policy.window)
  some (n + 1, if limit ≤ n + 1 ∧ 0 < policy.lockout then now + policy.lockout else reset)

def giveBack : Budget → Budget
  | none => none
  | some (n, reset) => if n - 1 ≤ 0 then none else some (n - 1, reset)

end Budget

/-- What is under a key and not over. -/
def MemoryThrottle.seen (m : MemoryThrottle) (now : Int) (k : String) : Budget :=
  (m.counters.lookup k).bind fun c => if now < c.reset then some (c.count, c.reset) else none

section Seen

variable {m : MemoryThrottle} {policy : ThrottlePolicy} {k k' : String} {now limit : Int} {c : FailureCount}

theorem seen_of_live (h : m.counters.lookup k = some c) (hlive : now < c.reset) :
    m.seen now k = some (c.count, c.reset) := by
  rw [MemoryThrottle.seen, h, Option.bind_some, if_pos hlive]

theorem seen_of_over (h : ∀ c, m.counters.lookup k = some c → ¬now < c.reset) : m.seen now k = none := by
  unfold MemoryThrottle.seen
  cases hl : m.counters.lookup k with
  | none => rfl
  | some c => exact if_neg (h c hl)

theorem seen_congr {m' : MemoryThrottle} (h : m'.counters.lookup k = m.counters.lookup k) :
    m'.seen now k = m.seen now k := by
  rw [MemoryThrottle.seen, h]
  rfl

theorem spent_eq : m.spent k limit now = Budget.spent limit now (m.seen now k) := by
  unfold MemoryThrottle.spent
  cases hl : m.counters.lookup k with
  | none => rw [seen_of_over fun c hc => by rw [hl] at hc; cases hc]; rfl
  | some c =>
    dsimp only
    by_cases hlive : now < c.reset
    · rw [seen_of_live hl hlive]
      unfold Budget.spent
      simp only [hlive, not_true_eq_false, false_or]
    · rw [if_pos (.inl hlive), seen_of_over]
      · rfl
      · rintro _ hc
        cases hl.symm.trans hc
        exact hlive

theorem seen_swept : (m.swept policy now).seen now k = m.seen now k := by
  cases hl : m.counters.lookup k with
  | none =>
    refine (seen_of_over fun c hc => ?_).trans (seen_of_over fun c hc => ?_).symm
    · cases hl.symm.trans (lookup_of_swept hc)
    · cases hl.symm.trans hc
  | some c =>
    by_cases hlive : now < c.reset
    · rw [seen_of_live (lookup_swept hl hlive) hlive, seen_of_live hl hlive]
    · refine (seen_of_over fun d hd => ?_).trans (seen_of_over fun d hd => ?_).symm
      · cases hl.symm.trans (lookup_of_swept hd)
        exact hlive
      · cases hl.symm.trans hd
        exact hlive

theorem seen_count : (m.count policy k limit now).seen now k = (m.seen now k).count policy limit now := by
  have hw := policy.window_pos
  rcases current_cases m policy k now with ⟨hlookup, hlive⟩ | ⟨hnew, hover⟩
  · refine (seen_of_live lookup_count ?_).trans ?_
    · unfold FailureCount.more
      dsimp only
      split <;> omega
    · rw [seen_of_live hlookup hlive]
      rfl
  · refine (seen_of_live lookup_count ?_).trans ?_
    · rw [hnew]
      unfold FailureCount.more
      dsimp only
      split <;> omega
    · rw [seen_of_over hover, hnew]
      rfl

theorem seen_giveBack : (m.giveBack k).seen now k = (m.seen now k).giveBack := by
  unfold MemoryThrottle.seen
  rw [lookup_giveBack]
  cases m.counters.lookup k with
  | none => rfl
  | some c =>
    rw [Option.bind_some, Option.bind_some]
    by_cases hlive : now < c.reset
    · rw [if_pos hlive, Budget.giveBack]
      split
      · rfl
      · exact if_pos hlive
    · rw [if_neg hlive, Budget.giveBack]
      split
      · rfl
      · exact if_neg hlive

/-- What is shown later is what is shown now and still not over. -/
theorem seen_later (d : Nat) :
    m.seen (now + d) k = (m.seen now k).bind fun b => if now + d < b.2 then some b else none := by
  unfold MemoryThrottle.seen
  cases m.counters.lookup k with
  | none => rfl
  | some c =>
    rw [Option.bind_some, Option.bind_some]
    by_cases hlive : now < c.reset
    · rw [if_pos hlive]
      rfl
    · rw [if_neg hlive, if_neg (by omega)]
      rfl

end Seen

/-! ### What a call shows afterwards -/

section Shown

variable {w : World} {m : MemoryThrottle} {now : Int} {i : Nat} {k : String}

/-- How long a sign-in has to wait for one of its budgets. -/
def refusal (w : World) (m : MemoryThrottle) (now : Int) (i : Nat) : Option Int :=
  (m.spent (w.pair i) (w.limit (w.pair i)) now).or (m.spent (w.client i) (w.limit (w.client i)) now)

/-- The throttle after both budgets were counted. -/
def countBoth (w : World) (m : MemoryThrottle) (now : Int) (i : Nat) : MemoryThrottle :=
  (m.count w.policy (w.pair i) (w.limit (w.pair i)) now).count w.policy (w.client i) (w.limit (w.client i)) now

theorem seen_countBoth : (countBoth w m now i).seen now k =
    if k = w.pair i ∨ k = w.client i then (m.seen now k).count w.policy (w.limit k) now else m.seen now k := by
  have hne := w.pair_ne_client i i
  by_cases hc : k = w.client i
  · subst hc
    rw [if_pos (.inr rfl), countBoth, seen_count, seen_congr (lookup_count_of_ne (Ne.symm hne))]
  · rw [countBoth, seen_congr (lookup_count_of_ne hc)]
    by_cases hp : k = w.pair i
    · subst hp
      rw [if_pos (.inl rfl), seen_count]
    · rw [if_neg (not_or.mpr ⟨hp, hc⟩), seen_congr (lookup_count_of_ne hp)]

theorem seen_refund : (m.refund (w.pair i) (w.client i)).seen now k =
    if k = w.pair i ∨ k = w.client i then (m.seen now k).giveBack else m.seen now k := by
  have hne := w.pair_ne_client i i
  by_cases hc : k = w.client i
  · subst hc
    rw [if_pos (.inr rfl), MemoryThrottle.refund, seen_giveBack, seen_congr (lookup_giveBack_of_ne (Ne.symm hne))]
  · rw [MemoryThrottle.refund, seen_congr (lookup_giveBack_of_ne hc)]
    by_cases hp : k = w.pair i
    · subst hp
      rw [if_pos (.inl rfl), seen_giveBack]
    · rw [if_neg (not_or.mpr ⟨hp, hc⟩), seen_congr (lookup_giveBack_of_ne hp)]

theorem seen_clear : (m.clear (w.pair i) (w.client i)).seen now k =
    if k = w.pair i then none else if k = w.client i then (m.seen now k).giveBack else m.seen now k := by
  have hne := w.pair_ne_client i i
  by_cases hc : k = w.client i
  · subst hc
    rw [if_neg (Ne.symm hne), if_pos rfl, MemoryThrottle.clear, seen_giveBack]
    exact congrArg Budget.giveBack (seen_congr (AList.lookup_erase_ne (Ne.symm hne)))
  · rw [MemoryThrottle.clear, seen_congr (lookup_giveBack_of_ne hc)]
    by_cases hp : k = w.pair i
    · subst hp
      rw [if_pos rfl]
      exact seen_of_over fun c hlookup => by cases (AList.lookup_erase ..).symm.trans hlookup
    · rw [if_neg hp, if_neg hc]
      exact seen_congr (AList.lookup_erase_ne hp)

theorem refusal_eq : refusal w m now i = ((m.seen now (w.pair i)).spent (w.limit (w.pair i)) now).or
    ((m.seen now (w.client i)).spent (w.limit (w.client i)) now) := by
  rw [refusal, spent_eq, spent_eq]

end Shown

/-! ### Steps -/

/-- No window of the key is open, or it is the one the sign-in is counted in. -/
def stands (s : State) (key : String) (i : Nat) : Bool :=
  (s.throttle.seen s.now key).isNone || s.books.counts key i

/-- Where the calls keep the books: there is room for what an attempt adds, and a unit is given back to
the windows it was taken from, as far as any are open. -/
def proper (w : World) (s : State) : Action → Bool
  | .attempt _ _ => room s.throttle w.policy s.now
  | .refund i | .clear i => stands s (w.pair i) i && stands s (w.client i) i
  | .tick _ => true

section Steps

variable {w : World} {s u : State} {i : Nat} {order : List String} {k : String}

/-- **What an attempt does**: it is refused and only sweeps, or neither budget is spent and both are
counted. -/
inductive Attempted (w : World) (s : State) (i : Nat) : State → Prop
  | refused (retry : Int) (spent : refusal w (s.throttle.swept w.policy s.now) s.now i = some retry) :
      Attempted w s i { s with
        throttle := s.throttle.swept w.policy s.now
        places := Function.update s.places i (.refused retry) }
  | granted (free : refusal w (s.throttle.swept w.policy s.now) s.now i = none) :
      Attempted w s i (s.grant w i (countBoth w (s.throttle.swept w.policy s.now) s.now i))

theorem step_attempt (hroom : room s.throttle w.policy s.now)
    (h : step w s (.attempt i order) = some u) : s.places i = .waiting ∧ Attempted w s i u := by
  rw [step] at h
  split at h
  · next hwait =>
    refine ⟨hwait, ?_⟩
    unfold MemoryThrottle.attempt at h
    rw [trim_of_room hroom, ← w.limit_pair i, ← w.limit_client i] at h
    cases hp : (s.throttle.swept w.policy s.now).spent (w.pair i) (w.limit (w.pair i)) s.now with
    | some retry =>
      simp only [hp] at h
      cases h
      exact .refused retry (by rw [refusal, hp]; rfl)
    | none =>
      cases hc : (s.throttle.swept w.policy s.now).spent (w.client i) (w.limit (w.client i)) s.now with
      | some retry =>
        simp only [hp, hc] at h
        cases h
        exact .refused retry (by rw [refusal, hp, hc]; rfl)
      | none =>
        simp only [hp, hc] at h
        cases h
        exact .granted (by rw [refusal, hp, hc]; rfl)
  · cases h

theorem step_refund (h : step w s (.refund i) = some u) : s.places i = .granted ∧
    u = { s with
      throttle := s.throttle.refund (w.pair i) (w.client i)
      places := update s.places i .refunded
      books := update (update s.books (w.pair i) (Window.leave i (s.books (w.pair i)))) (w.client i)
        (Window.leave i (s.books (w.client i))) } := by
  rw [step] at h
  split at h
  · next hgranted =>
    cases h
    exact ⟨hgranted, rfl⟩
  · cases h

theorem step_clear (h : step w s (.clear i) = some u) : s.places i = .granted ∧
    u = { s with
      throttle := s.throttle.clear (w.pair i) (w.client i)
      places := update s.places i .cleared
      books := update (update s.books (w.pair i) none) (w.client i)
        (Window.leave i (s.books (w.client i))) } := by
  rw [step] at h
  split at h
  · next hgranted =>
    cases h
    exact ⟨hgranted, rfl⟩
  · cases h

theorem books_grant (m : MemoryThrottle) : (s.grant w i m).books k =
    if k = w.pair i ∨ k = w.client i then Window.enter w.policy (w.limit k) s.now i (s.books k) else s.books k := by
  unfold State.grant
  dsimp only
  by_cases hc : k = w.client i
  · subst hc
    rw [if_pos (.inr rfl), update_self, w.limit_client]
  · rw [update_of_ne hc]
    by_cases hp : k = w.pair i
    · subst hp
      rw [if_pos (.inl rfl), update_self, w.limit_pair]
    · rw [if_neg (not_or.mpr ⟨hp, hc⟩), update_of_ne hp]

end Steps

/-! ### The books are kept -/

/-- What a window shows while it is open. -/
def Window.shown (now : Int) (x : Option Window) : Budget :=
  x.bind fun x => if now < x.reset then some ((x.units.length : Int), x.reset) else none

section Windows

variable {policy : ThrottlePolicy} {now limit : Int} {i : Nat} {x : Option Window}

theorem shown_enter : Window.shown now (Window.enter policy limit now i x) = (Window.shown now x).count policy limit now := by
  have hw := policy.window_pos
  have hcurrent : (Window.shown now x).getD (0, now + policy.window)
        = (((Window.current policy now x).units.length : Int), (Window.current policy now x).reset)
      ∧ now < (Window.current policy now x).reset := by
    cases x with
    | none => exact ⟨rfl, show now < now + policy.window by omega⟩
    | some x =>
      rw [Window.shown, Window.current, Option.bind_some]
      by_cases hlive : now < x.reset
      · rw [if_pos hlive, if_pos hlive]
        exact ⟨rfl, hlive⟩
      · rw [if_neg hlive, if_neg hlive]
        exact ⟨rfl, show now < now + policy.window by omega⟩
  rw [Budget.count, hcurrent.1]
  refine if_pos ?_
  have := hcurrent.2
  dsimp only
  split <;> omega

/-- A unit is given back by one who is counted, or where nothing is open. -/
theorem shown_leave (h : (Window.shown now x).isNone ∨ x.any (i ∈ ·.units)) :
    Window.shown now (Window.leave i x) = (Window.shown now x).giveBack := by
  cases x with
  | none => rfl
  | some x =>
    rw [Window.leave, Window.shown, Window.shown, Option.bind_some]
    by_cases hlive : now < x.reset
    · rw [if_pos hlive]
      have hi : i ∈ x.units := by simpa [Window.shown, hlive] using h
      have hlength := length_erase_add_one hi
      by_cases hlast : x.units.erase i = []
      · rw [if_pos hlast, Budget.giveBack, if_pos (by rw [hlast, length_nil] at hlength; omega)]
        rfl
      · have := length_pos_iff.mpr hlast
        rw [if_neg hlast, Budget.giveBack, if_neg (by omega), Option.bind_some, if_pos hlive, ← hlength]
        simp
    · rw [if_neg hlive]
      split
      · rfl
      · exact if_neg hlive

theorem shown_later (d : Nat) : Window.shown (now + d) x
    = (Window.shown now x).bind fun b => if now + d < b.2 then some b else none := by
  cases x with
  | none => rfl
  | some x =>
    simp only [Window.shown, Option.bind_some]
    by_cases hlive : now < x.reset
    · rw [if_pos hlive]
      rfl
    · rw [if_neg hlive, if_neg (by omega)]
      rfl

/-- A budget that is not spent has room for one more. -/
theorem length_enter_le {y : Window} (hfree : (Window.shown now x).spent limit now = none) (hlimit : 0 < limit)
    (hy : Window.enter policy limit now i x = some y) : (y.units.length : Int) ≤ limit := by
  have hcurrent : ((Window.current policy now x).units.length : Int) < limit := by
    cases x with
    | none => exact hlimit
    | some x =>
      rw [Window.current]
      by_cases hlive : now < x.reset
      · rw [if_pos hlive]
        simpa [Window.shown, hlive, Budget.spent] using hfree
      · rw [if_neg hlive]
        exact hlimit
  cases hy
  rw [length_cons]
  omega

theorem length_leave_le {y : Window} (hy : Window.leave i x = some y) :
    ∃ z, x = some z ∧ y.units.length ≤ z.units.length := by
  cases x with
  | none => cases hy
  | some z =>
    rw [Window.leave] at hy
    split at hy
    · cases hy
    · cases hy
      exact ⟨z, rfl, erase_sublist.length_le⟩

end Windows

/-- Every key shows who is counted in its window, and they are within the budget. -/
structure Kept (w : World) (s : State) : Prop where
  shown : ∀ k, s.throttle.seen s.now k = Window.shown s.now (s.books k)
  bounded : ∀ k x, s.books k = some x → (x.units.length : Int) ≤ w.limit k

theorem kept_initial (w : World) : Kept w w.initial := ⟨fun _ => rfl, nofun⟩

namespace Kept

variable {w : World} {s u : State} {i : Nat}

variable (h : Kept w s)
include h

theorem granted (hfree : refusal w (s.throttle.swept w.policy s.now) s.now i = none) :
    Kept w (s.grant w i (countBoth w (s.throttle.swept w.policy s.now) s.now i)) := by
  rw [refusal_eq, Option.or_eq_none_iff, seen_swept, seen_swept, h.shown, h.shown] at hfree
  constructor
  case shown =>
    intro k
    refine seen_countBoth.trans ?_
    rw [seen_swept, h.shown, books_grant]
    split
    · exact shown_enter.symm
    · rfl
  case bounded =>
    intro k x hx
    rw [books_grant] at hx
    split at hx
    · next hk =>
      refine length_enter_le ?_ (w.limit_pos k) hx
      rcases hk with rfl | rfl
      · exact hfree.1
      · exact hfree.2
    · exact h.bounded k x hx

omit h in
/-- A unit that is given back properly. -/
theorem stands_shown (h : Kept w s) {key : String} (hok : stands s key i) :
    (Window.shown s.now (s.books key)).isNone ∨ (s.books key).any (i ∈ ·.units) := by
  rw [← h.shown]
  exact Bool.or_eq_true_iff.mp hok

/-- One who leaves the windows of some keys leaves no more than there were in any. -/
theorem bounded_leave {books : Books} (hbooks : ∀ k x, books k = some x →
    s.books k = some x ∨ Window.leave i (s.books k) = some x) :
    ∀ k x, books k = some x → (x.units.length : Int) ≤ w.limit k := by
  intro k x hx
  rcases hbooks k x hx with hx | hx
  · exact h.bounded k x hx
  · obtain ⟨z, hz, hle⟩ := length_leave_le hx
    have := h.bounded k z hz
    omega

theorem refund (hok : proper w s (.refund i)) (hs : Auth.step w s (.refund i) = some u) : Kept w u := by
  obtain ⟨hp, hc⟩ := Bool.and_eq_true_iff.mp hok
  obtain ⟨-, rfl⟩ := step_refund hs
  have hne := w.pair_ne_client i i
  constructor
  case shown =>
    intro k
    refine seen_refund.trans ?_
    rw [h.shown]
    dsimp only
    by_cases hkc : k = w.client i
    · subst hkc
      rw [if_pos (.inr rfl), update_self, shown_leave (h.stands_shown hc)]
    · rw [update_of_ne hkc]
      by_cases hkp : k = w.pair i
      · subst hkp
        rw [if_pos (.inl rfl), update_self, shown_leave (h.stands_shown hp)]
      · rw [if_neg (not_or.mpr ⟨hkp, hkc⟩), update_of_ne hkp]
  case bounded =>
    refine h.bounded_leave (i := i) fun k x hx => ?_
    dsimp only at hx
    by_cases hkc : k = w.client i
    · subst hkc
      rw [update_self] at hx
      exact .inr hx
    · rw [update_of_ne hkc] at hx
      by_cases hkp : k = w.pair i
      · subst hkp
        rw [update_self] at hx
        exact .inr hx
      · rw [update_of_ne hkp] at hx
        exact .inl hx

theorem clear (hok : proper w s (.clear i)) (hs : Auth.step w s (.clear i) = some u) : Kept w u := by
  obtain ⟨-, hc⟩ := Bool.and_eq_true_iff.mp hok
  obtain ⟨-, rfl⟩ := step_clear hs
  have hne := w.pair_ne_client i i
  constructor
  case shown =>
    intro k
    refine seen_clear.trans ?_
    rw [h.shown]
    dsimp only
    by_cases hkc : k = w.client i
    · subst hkc
      rw [if_neg (Ne.symm hne), if_pos rfl, update_self, shown_leave (h.stands_shown hc)]
    · rw [update_of_ne hkc]
      by_cases hkp : k = w.pair i
      · subst hkp
        rw [if_pos rfl, update_self]
        rfl
      · rw [if_neg hkp, if_neg hkc, update_of_ne hkp]
  case bounded =>
    refine h.bounded_leave (i := i) fun k x hx => ?_
    dsimp only at hx
    by_cases hkc : k = w.client i
    · subst hkc
      rw [update_self] at hx
      exact .inr hx
    · rw [update_of_ne hkc] at hx
      by_cases hkp : k = w.pair i
      · subst hkp
        rw [update_self] at hx
        cases hx
      · rw [update_of_ne hkp] at hx
        exact .inl hx

theorem step {a : Action} (hok : proper w s a) (hs : Auth.step w s a = some u) : Kept w u := by
  cases a with
  | attempt =>
    obtain ⟨-, hattempt⟩ := step_attempt hok hs
    cases hattempt with
    | refused => exact ⟨fun k => seen_swept.trans (h.shown k), h.bounded⟩
    | granted free => exact h.granted free
  | refund => exact h.refund hok hs
  | clear => exact h.clear hok hs
  | tick d =>
    cases hs
    exact ⟨fun k => by rw [seen_later, shown_later, h.shown], h.bounded⟩

end Kept

end Hesape.Auth
