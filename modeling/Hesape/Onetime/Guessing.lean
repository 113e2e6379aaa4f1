import Hesape.Onetime.Records

/-!
# Guessing is bounded

Every attempt is counted twice before the presented code is compared: once against the
failure budget of the purpose and subject, once against the code.  A count that came back too
high, or not at all, ends the call, so a comparison was always counted.

The bounds rest on the counters staying alive.  The attempt counter lives as long as the code
had left when the clock was read, so it outlives the code and is never started again while the
code can be tried (`Counted.attempts`).  The failure counter runs for its window; an attempt
is *charged* to the window it was counted in until a right code takes its count back, and the
number of charged attempts never exceeds the count (`Counted.value`) nor the budget
(`Counted.failures`).

`prompt` is what the argument needs of a client: that it compares before the code expires and
before the window closes in which it was counted, and takes its count back before that window
closes.  A client that stalls past those moments is charged to the wrong window, or to none.
-/

namespace Hesape.Onetime

open Hesape.Cache (Table)
open Hesape.Run (Reach at_set at_append countP_set_add)

variable {Mac : Type}

/-- Comparisons come before the code and the failure window run out; a count is given back before
the window runs out. -/
def prompt (s : State Mac) : Action → Bool
  | .go i _ _ =>
    match s.clients[i]? with
    | none => true
    | some cl =>
      match cl.point with
      | .countAttempt r _ window => s.now < r.deadline && s.now < window
      | .giveBack _ _ window => s.now < window
      | _ => true
  | _ => true

variable {draw : Option Draw} {cl : Client Mac}

theorem prompt_attempt {s : State Mac} {i : Nat} {fault : Fault} {r : Record Mac} {remaining window : Nat}
    (hp : prompt s (.go i fault draw)) (hi : s.clients[i]? = some cl)
    (hpoint : cl.point = .countAttempt r remaining window) :
    s.now < r.deadline ∧ s.now < window := by
  simpa [prompt, hi, hpoint] using hp

theorem prompt_giveBack {s : State Mac} {i : Nat} {fault : Fault} {r : Record Mac} {remaining window : Nat}
    (hp : prompt s (.go i fault draw)) (hi : s.clients[i]? = some cl)
    (hpoint : cl.point = .giveBack r remaining window) : s.now < window := by
  simpa [prompt, hi, hpoint] using hp

/-! ### What is counted -/

/-- The call is for this purpose and subject. -/
def Client.isFor (p sub : String) (cl : Client Mac) : Bool :=
  cl.call.purpose = p && cl.call.subject = sub

/-- The client has compared against the code of this nonce. -/
def Client.tried (n : String) (cl : Client Mac) : Bool :=
  cl.compared.any fun k => k.outstanding.nonce = n

/-- The client has compared and failed, while the failure counter with this deadline ran. -/
def Client.failedIn (d : Nat) (cl : Client Mac) : Bool :=
  cl.compared.any fun k => !k.matched && k.window = some d

/-- The window a client between its count and its outcome was counted in. -/
def Point.window : Point Mac → Option Nat
  | .countAttempt _ _ w => some w
  | .giveBack _ _ w => some w
  | _ => none

/-- The client is charged to the window with this deadline: it was counted there and has not
taken its count back. -/
def Client.chargedTo (d : Nat) (cl : Client Mac) : Bool :=
  cl.point.window = some d || cl.failedIn d

/-- How often the code of a nonce was compared against, for a purpose and subject. -/
def tries (clients : List (Client Mac)) (p sub n : String) : Nat :=
  clients.countP fun cl => cl.isFor p sub && cl.tried n

/-- How many calls for a purpose and subject are charged to a window. -/
def charges (clients : List (Client Mac)) (p sub : String) (d : Nat) : Nat :=
  clients.countP fun cl => cl.isFor p sub && cl.chargedTo d

/-- What is kept of the attempts on one code. -/
def Covered (c : Codes) (h : Hashing Mac) (s : State Mac) (p sub n : String) : Prop :=
  tries s.clients p sub n ≤ c.maxAttempts
    ∧ (s.store (attemptKey (h.scope p sub) n) = none → tries s.clients p sub n = 0)
    ∧ ∀ e, s.store (attemptKey (h.scope p sub) n) = some e →
      ∃ m r, e.value = .number m ∧ (tries s.clients p sub n : Int) ≤ m ∧ Made s p sub r ∧ r.nonce = n
        ∧ r.deadline ≤ e.expires

/-- **What every prompt run keeps of the counters.** -/
structure Counted (c : Codes) (h : Hashing Mac) (s : State Mac) : Prop where
  attempts : ∀ p sub n, Covered c h s p sub n
  failures : ∀ p sub d, charges s.clients p sub d ≤ c.maxFailures
  windows : ∀ (i : Nat) (cl : Client Mac) (d : Nat), s.clients[i]? = some cl →
    cl.chargedTo d = true →
    ∃ e, s.store (failureKey (cl.scope h)) = some e ∧ (d = e.expires ∨ d ≤ s.now)
  value : ∀ p sub e, s.store (failureKey (h.scope p sub)) = some e →
    ∃ m, e.value = .number m ∧ (charges s.clients p sub e.expires : Int) ≤ m
  settled : ∀ (i : Nat) (cl : Client Mac) (d : Nat), s.clients[i]? = some cl →
    cl.failedIn d = true → ∃ a, cl.point = .done a

theorem counted_initial {c : Codes} {h : Hashing Mac} (now : Nat) : Counted c h (State.initial now) where
  attempts := by
    intro p sub n
    exact ⟨Nat.zero_le _, fun _ => rfl, nofun⟩
  failures := by
    intro p sub d
    exact Nat.zero_le _
  windows := by intro i cl d hi; simp [State.initial] at hi
  value := by intro p sub e he; cases he
  settled := by intro i cl d hi; simp [State.initial] at hi

/-! ### Counters -/

/-- Adding to a counter: a running one goes on with its deadline, a free key starts one. -/
theorem increment_cases {store : Store Mac} {key : String} (now : Nat) (delta : Int) (expires : Nat)
    (hnum : ∀ e, store key = some e → ∃ m, e.value = .number m) :
    (∃ e m, store key = some e ∧ now < e.expires ∧ e.value = .number m
      ∧ store.increment now key delta expires
        = (some (m + delta), store.put key (.number (m + delta)) e.expires))
    ∨ (store.live now key = none
      ∧ store.increment now key delta expires = (some delta, store.put key (.number delta) expires)) := by
  unfold Table.increment
  match hl : store.live now key with
  | none => exact .inr ⟨rfl, rfl⟩
  | some e =>
    obtain ⟨he, hlt⟩ := Table.live_eq_some.mp hl
    obtain ⟨m, hm⟩ := hnum e he
    refine .inl ⟨e, m, he, hlt, hm, ?_⟩
    dsimp only
    rw [hm]
    rfl

section Go

variable {c : Codes} {h : Hashing Mac}
variable {s : State Mac} {i : Nat} {fault : Fault} {draw : Option Draw} {cl cl' : Client Mac}
variable {after : Store Mac}

variable {p sub : String} {d : Nat}

theorem isFor_iff : cl.isFor p sub ↔ cl.call.purpose = p ∧ cl.call.subject = sub := by
  simp [Client.isFor]

theorem Client.isFor_scope (hfor : cl.isFor p sub) :
    cl.scope h = h.scope p sub := by
  obtain ⟨hp, hs⟩ := isFor_iff.mp hfor
  rw [Client.scope, hp, hs]

theorem Client.isFor_of_scope (hscope : cl.scope h = h.scope p sub) :
    cl.isFor p sub :=
  isFor_iff.mpr (h.scope_inj hscope)

theorem isFor_congr (hcall : cl'.call = cl.call) : cl'.isFor p sub = cl.isFor p sub := by
  unfold Client.isFor
  rw [hcall]

/-- What a move adds to a count of clients. -/
theorem count_set (hi : s.clients[i]? = some cl) (hcall : cl'.call = cl.call) (p sub : String) (P : Client Mac → Bool) :
    (s.clients.set i cl').countP (fun cl => cl.isFor p sub && P cl) + (if cl.isFor p sub && P cl then 1 else 0)
      = s.clients.countP (fun cl => cl.isFor p sub && P cl) + (if cl.isFor p sub && P cl' then 1 else 0) := by
  have hcount := countP_set_add (p := fun cl => cl.isFor p sub && P cl) (y := cl') hi
  rwa [isFor_congr hcall] at hcount

/-! ### Charges -/

theorem chargedTo_iff :
    cl.chargedTo d ↔ cl.point.window = some d ∨ cl.failedIn d := by
  simp [Client.chargedTo]

theorem failedIn_congr {a b : Client Mac} (he : a.compared = b.compared) (d : Nat) :
    a.failedIn d = b.failedIn d := by
  rw [Client.failedIn, he, Client.failedIn]

/-- A client that has a point ahead has not failed. -/
theorem Counted.not_failed (hcount : Counted c h s) (hi : s.clients[i]? = some cl)
    (hp : ∀ a, cl.point ≠ .done a) (d : Nat) : cl.failedIn d = false := by
  by_contra hf
  obtain ⟨a, ha⟩ := hcount.settled i cl d hi (by simpa using hf)
  exact hp a ha

/-- The window of a client that is in time is the one that runs now. -/
theorem Counted.window_live (hcount : Counted c h s) (hi : s.clients[i]? = some cl) {w : Nat}
    (hw : cl.point.window = some w) (hnow : s.now < w) :
    ∃ e, s.store (failureKey (cl.scope h)) = some e ∧ w = e.expires := by
  obtain ⟨e, he, hd | hd⟩ := hcount.windows i cl w hi (chargedTo_iff.mpr (.inl hw))
  · exact ⟨e, he, hd⟩
  · omega

/-- A move adds no charge and leaves the failure counters alone. -/
def Quiet (h : Hashing Mac) (s : State Mac) (cl cl' : Client Mac) (after : Store Mac) : Prop :=
  (∀ d, cl'.chargedTo d = true → cl.chargedTo d = true)
    ∧ ∀ p sub, after (failureKey (h.scope p sub)) = s.store (failureKey (h.scope p sub))

/-- A client counts a failure: within the budget it is charged to the window that runs, over it
or after an error it is not charged. -/
def Counts (c : Codes) (h : Hashing Mac) (s : State Mac) (cl cl' : Client Mac) (after : Store Mac) :
    Prop :=
  after = (s.store.increment s.now (failureKey (cl.scope h)) 1 (s.now + c.failureWindow)).2
    ∧ ((∀ d, cl'.chargedTo d = true → cl.chargedTo d = true)
      ∨ ∃ failures,
          (s.store.increment s.now (failureKey (cl.scope h)) 1 (s.now + c.failureWindow)).1
            = some failures ∧ failures ≤ c.maxFailures
          ∧ ∀ d, cl'.chargedTo d = true → d = (cl.failureDeadline h s.now after).getD s.now)

/-- A client is no longer charged, and took its count back or failed to. -/
def Returns (c : Codes) (h : Hashing Mac) (s : State Mac) (cl cl' : Client Mac) (after : Store Mac) :
    Prop :=
  (∀ d, cl'.chargedTo d = false) ∧ ∃ w, cl.point.window = some w ∧ s.now < w
    ∧ (after = s.store
      ∨ after = (s.store.increment s.now (failureKey (cl.scope h)) (-1) (s.now + c.failureWindow)).2)

theorem quiet_of_touch (hsub : ∀ d, cl'.chargedTo d → cl.chargedTo d)
    (touch : Touch c h s.now s.store cl after) (hf : ∀ r n, cl.point ≠ .countFailure r n)
    (hg : ∀ r n w, cl.point ≠ .giveBack r n w) : Quiet h s cl cl' after := by
  refine ⟨hsub, ?_⟩
  intro p sub
  rcases touch.failureKey_cases p sub with hst | ⟨r, n, hp, -⟩ | ⟨r, n, w, hp, -⟩
  · exact hst
  · exact absurd hp (hf r n)
  · exact absurd hp (hg r n w)

/-- A client that goes on without being counted is charged only if it was. -/
theorem charged_of_goTo (hcount : Counted c h s) (hi : s.clients[i]? = some cl)
    (hp : ∀ a, cl.point ≠ .done a) {x : Point Mac} (hx : x.window = none) (d : Nat) :
    (cl.goTo x).chargedTo d = false := by
  by_contra hd
  rcases chargedTo_iff.mp (by simpa using hd) with hw | hf
  · rw [Client.goTo, hx] at hw
    cases hw
  · have := hcount.not_failed hi hp d
    rw [show (cl.goTo x).failedIn d = cl.failedIn d from rfl, this] at hf
    cases hf

theorem uncharged (hnot : ∀ d, cl'.chargedTo d = false) (d : Nat) (hd : cl'.chargedTo d) :
    cl.chargedTo d := by
  rw [hnot d] at hd
  cases hd

/-- A move that adds no charge to a window adds nothing to its count. -/
theorem charges_le (hi : s.clients[i]? = some cl) (hcall : cl'.call = cl.call)
    (hsub : cl.isFor p sub → cl'.chargedTo d → cl.chargedTo d) :
    charges (s.clients.set i cl') p sub d ≤ charges s.clients p sub d := by
  have hset : charges _ p sub d + _ = charges _ p sub d + _ := count_set hi hcall p sub (Client.chargedTo d)
  have hle : (if cl.isFor p sub && cl'.chargedTo d then 1 else 0)
      ≤ if cl.isFor p sub && cl.chargedTo d then 1 else 0 := by
    by_cases hd : (cl.isFor p sub && cl'.chargedTo d)
    · obtain ⟨hfor, hto⟩ := Bool.and_eq_true_iff.mp hd
      simp [hfor, hto, hsub hfor hto]
    · simp [hd]
  omega

theorem charges_le_succ (hi : s.clients[i]? = some cl) (hcall : cl'.call = cl.call) (p sub : String) (d : Nat) :
    charges (s.clients.set i cl') p sub d ≤ charges s.clients p sub d + 1 := by
  have hset : charges _ p sub d + _ = charges _ p sub d + _ := count_set hi hcall p sub (Client.chargedTo d)
  have hone : (if cl.isFor p sub && cl'.chargedTo d then 1 else 0) ≤ 1 := by split <;> omega
  omega

/-- No charge is to a window that is yet to begin. -/
theorem Counted.charges_future (hcount : Counted c h s)
    (hfree : s.store.live s.now (failureKey (h.scope p sub)) = none) (hd : s.now < d) :
    charges s.clients p sub d = 0 := by
  refine List.countP_eq_zero.mpr ?_
  intro x hx hcharged
  obtain ⟨hfor, hto⟩ := Bool.and_eq_true_iff.mp hcharged
  obtain ⟨k, hk⟩ := List.getElem?_of_mem hx
  obtain ⟨e, he, hde | hde⟩ := hcount.windows k x d hk hto
  · rw [x.isFor_scope hfor] at he
    have := Table.live_eq_none.mp hfree e he
    omega
  · omega

/-- The failure budget is kept. -/
def Budget (c : Codes) (h : Hashing Mac) (now : Nat) (store : Store Mac)
    (clients : List (Client Mac)) : Prop :=
  (∀ p sub d, charges clients p sub d ≤ c.maxFailures)
    ∧ (∀ (i : Nat) (cl : Client Mac) (d : Nat), clients[i]? = some cl → cl.chargedTo d = true →
      ∃ e, store (failureKey (cl.scope h)) = some e ∧ (d = e.expires ∨ d ≤ now))
    ∧ ∀ p sub e, store (failureKey (h.scope p sub)) = some e →
      ∃ m, e.value = .number m ∧ (charges clients p sub e.expires : Int) ≤ m

variable (hcount : Counted c h s) (hi : s.clients[i]? = some cl) (hcall : cl'.call = cl.call)
include hcount hi hcall

theorem Quiet.budget (hq : Quiet h s cl cl' after) :
    Budget c h s.now after (s.clients.set i cl') := by
  obtain ⟨hsub, hkeep⟩ := hq
  refine ⟨?_, ?_, ?_⟩
  · intro p sub d
    exact (charges_le hi hcall fun _ => hsub d).trans (hcount.failures p sub d)
  · intro k x d hk hd
    rcases at_set hk with ⟨-, rfl⟩ | ⟨-, hk⟩
    · obtain ⟨e, he, hde⟩ := hcount.windows i cl d hi (hsub d hd)
      refine ⟨e, ?_, hde⟩
      show after (failureKey (h.scope _ _)) = _
      rw [hcall, hkeep]
      exact he
    · obtain ⟨e, he, hde⟩ := hcount.windows k x d hk hd
      exact ⟨e, (hkeep _ _).trans he, hde⟩
  · intro p sub e he
    obtain ⟨m, hm, hle⟩ := hcount.value p sub e ((hkeep p sub).symm.trans he)
    exact ⟨m, hm, (Int.ofNat_le.mpr (charges_le hi hcall fun _ => hsub e.expires)).trans hle⟩

/-- A counter is written for a client: it covers the charges to its window, and the client is charged to
that window or to one that is over. -/
theorem Counted.put_budget
    {k : Int} {x : Nat}
    (hold : ∀ e, s.store (failureKey (cl.scope h)) = some e → x = e.expires ∨ e.expires ≤ s.now)
    (hmine : ∀ d, cl'.chargedTo d → d = x ∨ d ≤ s.now)
    (hmax : ∀ d, charges (s.clients.set i cl') cl.call.purpose cl.call.subject d ≤ c.maxFailures)
    (hk : (charges (s.clients.set i cl') cl.call.purpose cl.call.subject x : Int) ≤ k) :
    Budget c h s.now (s.store.put (failureKey (cl.scope h)) (.number k) x) (s.clients.set i cl') := by
  have hother : ∀ p sub, cl.isFor p sub = false →
      s.store.put (failureKey (cl.scope h)) (.number k) x (failureKey (h.scope p sub))
        = s.store (failureKey (h.scope p sub)) := by
    intro p sub hfor
    refine Table.put_of_ne _ _ _ fun e => ?_
    rw [cl.isFor_of_scope (failureKey_inj e).symm] at hfor
    cases hfor
  have hle : ∀ p sub d, cl.isFor p sub = false →
      charges (s.clients.set i cl') p sub d ≤ charges s.clients p sub d :=
    fun p sub d hfor => charges_le hi hcall fun h => by rw [hfor] at h; cases h
  refine ⟨?_, ?_, ?_⟩
  · intro p sub d
    cases hfor : cl.isFor p sub with
    | true =>
      obtain ⟨rfl, rfl⟩ := isFor_iff.mp hfor
      exact hmax d
    | false => exact (hle p sub d hfor).trans (hcount.failures p sub d)
  · intro l y d hl hd
    show ∃ e, s.store.put (failureKey (cl.scope h)) (.number k) x (failureKey (h.scope _ _)) = some e ∧ _
    rcases at_set hl with ⟨-, rfl⟩ | ⟨-, hl⟩
    · rw [hcall]
      exact ⟨_, Table.put_self .., hmine d hd⟩
    · obtain ⟨e, he, hde⟩ := hcount.windows l y d hl hd
      cases hfor : cl.isFor y.call.purpose y.call.subject with
      | true =>
        have hscope : cl.scope h = y.scope h := cl.isFor_scope hfor
        have := hold e (hscope ▸ he)
        rw [← show cl.scope h = h.scope y.call.purpose y.call.subject from hscope]
        refine ⟨_, Table.put_self .., ?_⟩
        dsimp only
        omega
      | false =>
        rw [hother _ _ hfor]
        exact ⟨e, he, hde⟩
  · intro p sub e he
    cases hfor : cl.isFor p sub with
    | true =>
      rw [← cl.isFor_scope hfor, Table.put_self] at he
      cases he
      obtain ⟨rfl, rfl⟩ := isFor_iff.mp hfor
      exact ⟨k, rfl, hk⟩
    | false =>
      obtain ⟨m, hm, _⟩ := hcount.value p sub e ((hother p sub hfor).symm.trans he)
      have := hle p sub e.expires hfor
      exact ⟨m, hm, by omega⟩

theorem Counts.budget (hq : Counts c h s cl cl' after) :
    Budget c h s.now after (s.clients.set i cl') := by
  obtain ⟨hafter, hcharge⟩ := hq
  -- The counter after the count: its value covers every charge to its window and one more.
  obtain ⟨k, x, hinc, hk, hx, hold⟩ : ∃ k x,
      s.store.increment s.now (failureKey (cl.scope h)) 1 (s.now + c.failureWindow)
        = (some k, s.store.put (failureKey (cl.scope h)) (.number k) x)
      ∧ (charges s.clients cl.call.purpose cl.call.subject x : Int) + 1 ≤ k
      ∧ s.now < x
      ∧ ∀ e, s.store (failureKey (cl.scope h)) = some e → x = e.expires ∨ e.expires ≤ s.now := by
    rcases increment_cases s.now 1 (s.now + c.failureWindow)
        (fun e he => (hcount.value cl.call.purpose cl.call.subject e he).imp fun m hm => hm.1) with
      ⟨e, m, he, hlt, hv, hinc⟩ | ⟨hfree, hinc⟩
    · obtain ⟨_, hv', _⟩ := hcount.value cl.call.purpose cl.call.subject e he
      rw [hv] at hv'
      cases hv'
      refine ⟨m + 1, e.expires, hinc, by omega, hlt, ?_⟩
      intro e' he'
      rw [Client.scope, he] at he'
      cases he'
      exact .inl rfl
    · have hpos := c.failureWindow_pos
      have hzero := hcount.charges_future hfree (d := s.now + c.failureWindow) (by omega)
      refine ⟨1, _, hinc, by omega, by omega, ?_⟩
      intro e' he'
      exact .inr (Table.live_eq_none.mp hfree e' he')
  rw [hinc] at hafter hcharge
  subst hafter
  have hrunning : cl.failureDeadline h s.now
      (s.store.put (failureKey (cl.scope h)) (.number k) x) = some x := by
    have hlive : Table.live (s.store.put (failureKey (cl.scope h)) (.number k) x) s.now
        (failureKey (cl.scope h)) = some ⟨.number k, x⟩ :=
      Table.live_eq_some.mpr ⟨Table.put_self .., hx⟩
    rw [Client.failureDeadline, hlive]
    rfl
  -- What the client may be charged to now.
  have hnew : ∀ d, cl'.chargedTo d → cl.chargedTo d ∨ (d = x ∧ k ≤ c.maxFailures) := by
    intro d hd
    rcases hcharge with hsub | ⟨failures, hf, hwithin, hd'⟩
    · exact .inl (hsub d hd)
    · cases hf
      have := hd' d hd
      rw [hrunning] at this
      exact .inr ⟨this, hwithin⟩
  refine hcount.put_budget hi hcall hold (fun d hd => ?_) (fun d => ?_) ?_
  · rcases hnew d hd with hc | ⟨hdx, -⟩
    · obtain ⟨e, he, _⟩ := hcount.windows i cl d hi hc
      have := hold e he
      omega
    · exact .inl hdx
  · by_cases hd : d = x ∧ k ≤ c.maxFailures
    · obtain ⟨rfl, _⟩ := hd
      have := charges_le_succ hi hcall cl.call.purpose cl.call.subject d
      omega
    · exact (charges_le hi hcall fun _ hto => (hnew d hto).resolve_right hd).trans (hcount.failures _ _ d)
  · have := charges_le_succ hi hcall cl.call.purpose cl.call.subject x
    omega

theorem Returns.budget (hq : Returns c h s cl cl' after) :
    Budget c h s.now after (s.clients.set i cl') := by
  obtain ⟨hnot, w, hw, hnow, hafter | hafter⟩ := hq
  · -- The count was not taken back: there is one charge less on the same counter.
    subst hafter
    exact Quiet.budget hcount hi hcall ⟨uncharged hnot, fun _ _ => rfl⟩
  · obtain ⟨e, he, rfl⟩ := hcount.window_live hi hw hnow
    obtain ⟨m, hv, _⟩ := hcount.value cl.call.purpose cl.call.subject e he
    have hinc : s.store.increment s.now (failureKey (cl.scope h)) (-1) (s.now + c.failureWindow)
        = (some (m + -1), s.store.put (failureKey (cl.scope h)) (.number (m + -1)) e.expires) := by
      rcases increment_cases s.now (-1) (s.now + c.failureWindow)
          (fun e he => (hcount.value cl.call.purpose cl.call.subject e he).imp fun m hm => hm.1) with
        ⟨e', m', he', -, hv', hinc⟩ | ⟨hfree, -⟩
      · rw [Client.scope] at he
        rw [he] at he'
        cases he'
        rw [hv] at hv'
        cases hv'
        exact hinc
      · have := Table.live_eq_none.mp hfree e he
        omega
    rw [hinc] at hafter
    subst hafter
    refine hcount.put_budget hi hcall (fun e' he' => .inl ?_) (fun d hd => ?_) (fun d => ?_) ?_
    · rw [he] at he'
      cases he'
      rfl
    · rw [hnot d] at hd
      cases hd
    · exact (charges_le hi hcall fun _ => uncharged hnot d).trans (hcount.failures _ _ d)
    · have hset : charges _ _ _ _ + _ = charges _ _ _ _ + _ :=
        count_set hi hcall cl.call.purpose cl.call.subject (Client.chargedTo e.expires)
      have hcharged : cl.chargedTo e.expires := chargedTo_iff.mpr (.inl hw)
      simp only [isFor_iff.mpr ⟨rfl, rfl⟩, hcharged, hnot, Bool.and_self, Bool.and_false, if_true,
        Bool.false_eq_true, if_false] at hset
      omega

omit hcount hi hcall

variable [DecidableEq Mac]

/-! ### Attempts -/

theorem Sound.made_of_isFor (hsound : Sound h s) (hi : s.clients[i]? = some cl) {r : Record Mac} {remaining window : Nat}
    (hp : cl.point = .countAttempt r remaining window) (hfor : cl.isFor p sub) : Made s p sub r := by
  obtain ⟨rfl, rfl⟩ := isFor_iff.mp hfor
  exact hsound.held i cl r hi (by rw [hp]; rfl)

/-- Counting an attempt on a code that can still be tried: the counter is running, or none was
started. -/
theorem Counted.attempt_counts (hsound : Sound h s) (hcount : Counted c h s)
    (hpr : prompt s (.go i fault draw)) (hi : s.clients[i]? = some cl) {r : Record Mac}
    {remaining window : Nat} (hp : cl.point = .countAttempt r remaining window)
    (hfor : cl.isFor p sub) :
    ∃ k x, s.store.increment s.now (attemptKey (cl.scope h) r.nonce) 1 (s.now + remaining)
        = (some k, s.store.put (attemptKey (cl.scope h) r.nonce) (.number k) x)
      ∧ (tries s.clients p sub r.nonce : Int) + 1 ≤ k ∧ r.deadline ≤ x := by
  obtain ⟨-, hnone, hsome⟩ := hcount.attempts p sub r.nonce
  rw [cl.isFor_scope hfor]
  have hm := hsound.made_of_isFor hi hp hfor
  have hleft := hsound.left i cl r remaining hi (by rw [hp]; rfl)
  rcases increment_cases s.now 1 (s.now + remaining)
      (fun e he => (hsome e he).imp fun m hx => hx.choose_spec.1) with
    ⟨e, m, he, hlt, hv, hinc⟩ | ⟨hfree, hinc⟩
  · obtain ⟨m', r', hv', _, hm', hn, hexp⟩ := hsome e he
    rw [hv] at hv'
    cases hv'
    obtain ⟨-, -, rfl⟩ := hsound.made_unique hm hm' hn.symm
    exact ⟨m + 1, e.expires, hinc, by omega, hexp⟩
  · refine ⟨1, s.now + remaining, hinc, ?_, hleft⟩
    -- A counter that was started outlives the code, so there is none.
    have hempty : s.store (attemptKey (h.scope p sub) r.nonce) = none := by
      cases he : s.store (attemptKey (h.scope p sub) r.nonce) with
      | none => rfl
      | some e =>
        obtain ⟨m', r', -, -, hm', hn, hexp⟩ := hsome e he
        obtain ⟨-, -, rfl⟩ := hsound.made_unique hm hm' hn.symm
        have hold := Table.live_eq_none.mp hfree e he
        have := (prompt_attempt hpr hi hp).1
        omega
    have := hnone hempty
    omega

omit [DecidableEq Mac] in
/-- The counter is as it was, and there are no more attempts. -/
theorem Covered.kept {s' : State Mac} {n : String} (hcov : Covered c h s p sub n)
    (hmade : ∀ {p sub r}, Made s p sub r → Made s' p sub r)
    (hst : s'.store (attemptKey (h.scope p sub) n) = s.store (attemptKey (h.scope p sub) n))
    (hle : tries s'.clients p sub n ≤ tries s.clients p sub n) : Covered c h s' p sub n := by
  obtain ⟨hmax, hnone, hsome⟩ := hcov
  refine ⟨hle.trans hmax, fun he => ?_, fun e he => ?_⟩
  · have := hnone (hst ▸ he)
    omega
  · obtain ⟨m, r, hv, _, hm, hrest⟩ := hsome e (hst ▸ he)
    exact ⟨m, r, hv, by omega, hmade hm, hrest⟩

theorem counted_attempts_go (hsound : Sound h s) (hcount : Counted c h s)
    (hpr : prompt s (.go i fault draw)) (hi : s.clients[i]? = some cl)
    (hmove : Moves c h s.now s.store fault draw cl cl' after)
    (hmade : ∀ {p sub r}, Made s p sub r → Made ⟨s.now, after, s.clients.set i cl'⟩ p sub r)
    (p sub n : String) : Covered c h ⟨s.now, after, s.clients.set i cl'⟩ p sub n := by
  have hcov : Covered c h s p sub n := hcount.attempts p sub n
  have hset : tries _ p sub n + _ = tries _ p sub n + _ := count_set hi hmove.call_eq p sub (Client.tried n)
  by_cases hmatch : ∃ r remaining window, cl.point = .countAttempt r remaining window
      ∧ cl.isFor p sub ∧ r.nonce = n
  · -- The client counts an attempt on this code.
    obtain ⟨r, remaining, window, hp, hfor, rfl⟩ := hmatch
    obtain ⟨k, x, hinc, _, hx⟩ := hcount.attempt_counts hsound hpr hi hp hfor
    rw [cl.isFor_scope hfor] at hinc
    have hm := hsound.made_of_isFor hi hp hfor
    have hle : tries (s.clients.set i cl') p sub r.nonce ≤ tries s.clients p sub r.nonce + 1 := by
      have : (if (cl.isFor p sub && cl'.tried r.nonce) = true then 1 else 0) ≤ 1 := by
        split <;> omega
      omega
    have hput : after (attemptKey (h.scope p sub) r.nonce) = some ⟨.number k, x⟩ →
        tries (s.clients.set i cl') p sub r.nonce ≤ c.maxAttempts →
        Covered c h ⟨s.now, after, s.clients.set i cl'⟩ p sub r.nonce := by
      intro hst hmax
      refine ⟨hmax, fun he => ?_, fun e he => ?_⟩ <;> cases hst.symm.trans he
      exact ⟨k, r, rfl, by dsimp only; omega, hmade hm, rfl, hx⟩
    rcases hmove.compared_cases with he | ⟨r', rem', w', attempts, hp', -, hinc', _, -⟩
    · -- It did not get to compare.
      have htried : cl'.tried r.nonce = cl.tried r.nonce := by rw [Client.tried, he, Client.tried]
      rw [htried] at hset
      rcases hmove.touch.attemptKey_cases p sub r.nonce with hst | ⟨r₂, rem₂, w₂, hp₂, -, -, hst⟩
      · exact hcov.kept hmade hst (by dsimp only; omega)
      · rw [hp] at hp₂
        cases hp₂
        rw [hinc] at hst
        exact hput (hst ▸ Table.put_self ..) (by have := hcov.1; omega)
    · -- It compared, and the count that came back was within the limit.
      rw [hp] at hp'
      cases hp'
      rw [cl.isFor_scope hfor, hinc] at hinc'
      cases hinc'
      exact hput (Table.put_self ..) (by omega)
  · -- Some other code: nothing about this one changes.
    refine hcov.kept hmade ?_ ?_
    · rcases hmove.touch.attemptKey_cases p sub n with hst | ⟨r₂, rem₂, w₂, hp₂, hscope, hn, -⟩
      · exact hst
      · exact absurd ⟨r₂, rem₂, w₂, hp₂, cl.isFor_of_scope hscope, hn⟩ hmatch
    · dsimp only
      rcases hmove.compared_cases with he | ⟨r', rem', w', attempts, hp', -, -, -, rfl⟩
      · have htried : cl'.tried n = cl.tried n := by rw [Client.tried, he, Client.tried]
        rw [htried] at hset
        omega
      · have hnot : (cl.isFor p sub && (cl.compare h r' rem' w'
            (cl.failureDeadline h s.now after)).tried n) = false := by
          rw [Bool.and_eq_false_iff]
          by_cases hfor : cl.isFor p sub
          · right
            have hne : r'.nonce ≠ n := fun hn => hmatch ⟨r', rem', w', hp', hfor, hn⟩
            simp [Client.tried, Client.compare, hne]
          · left
            simpa using hfor
        rw [hnot] at hset
        simp only [Bool.false_eq_true, if_false] at hset
        omega

/-! ### Failures -/

/-- **What a move does to the failure budget.** -/
theorem charge_cases (hcount : Counted c h s) (hpr : prompt s (.go i fault draw))
    (hi : s.clients[i]? = some cl) (hmove : Moves c h s.now s.store fault draw cl cl' after) :
    Quiet h s cl cl' after ∨ Counts c h s cl cl' after ∨ Returns c h s cl cl' after := by
  have htouch := hmove.touch
  cases hmove with
  | idle _ => exact .inl ⟨fun _ hd => hd, fun _ _ => rfl⟩
  | refuse e running touch =>
    have hnot := charged_of_goTo (x := .done (.refused e)) hcount hi running rfl
    have hsub : ∀ d, (cl.refuse e).chargedTo d → cl.chargedTo d := uncharged hnot
    cases touch with
    | failure => exact .inr (.inl ⟨rfl, .inl hsub⟩)
    | giveBack at_point =>
      exact .inr (.inr ⟨hnot, _, by rw [at_point]; rfl, prompt_giveBack hpr hi at_point, .inr rfl⟩)
    | nothing => exact .inl ⟨hsub, fun _ _ => rfl⟩
    | record at_point | attempt at_point | spend at_point | remove at_point =>
      exact .inl (quiet_of_touch hsub htouch (by simp [at_point]) (by simp [at_point]))
  | @draw start d at_point _ =>
    exact .inl ⟨uncharged (charged_of_goTo (x := .issuePut d.code (freshRecord c h cl.call.purpose
      cl.call.subject start d)) hcount hi (by simp [at_point]) rfl), fun _ _ => rfl⟩
  | write at_point | burn at_point _ | housekeep at_point _ =>
    exact .inl (quiet_of_touch (uncharged (charged_of_goTo hcount hi (by simp [at_point]) rfl)) htouch
      (by simp [at_point]) (by simp [at_point]))
  | read at_point _ | clock at_point _ =>
    exact .inl ⟨uncharged (charged_of_goTo hcount hi (by simp [at_point]) rfl), fun _ _ => rfl⟩
  | @failure r _ failures _ at_point _ counted within =>
    refine .inr (.inl ⟨by rw [counted], .inr ⟨failures, by rw [counted], within, ?_⟩⟩)
    intro d hd
    rcases chargedTo_iff.mp hd with hw | hf
    · exact (Option.some.inj hw).symm
    · have hnot := hcount.not_failed hi (by simp [at_point]) d
      have hfail : cl.failedIn d := hf
      rw [hnot] at hfail
      cases hfail
  | @attempt r _ window _ _ at_point _ _ _ =>
    have hnow := (prompt_attempt hpr hi at_point).2
    obtain ⟨e, he, hwe⟩ := hcount.window_live hi (by rw [at_point]; rfl) hnow
    have hquiet : Quiet h s cl cl after :=
      quiet_of_touch (fun _ hd => hd) htouch (by simp [at_point]) (by simp [at_point])
    have hkeep := hquiet.2
    have hrunning : cl.failureDeadline h s.now after = some window := by
      have hlive : Table.live after s.now (failureKey (cl.scope h)) = some e :=
        Table.live_eq_some.mpr ⟨(hkeep _ _).trans he, by omega⟩
      rw [Client.failureDeadline, hlive, hwe]
      rfl
    refine .inl ⟨?_, hkeep⟩
    intro d hd
    rw [hrunning] at hd
    refine chargedTo_iff.mpr (.inl ?_)
    rw [at_point]
    rcases chargedTo_iff.mp hd with hw | hf
    · simp only [Client.compare] at hw
      split at hw
      · exact hw
      · cases hw
    · simp only [Client.compare, Client.failedIn, Option.any_some, Bool.and_eq_true,
        decide_eq_true_eq] at hf
      exact hf.2
  | @giveBack r _ window _ at_point touch =>
    refine .inr (.inr ⟨charged_of_goTo hcount hi (by simp [at_point]) rfl, window,
      by rw [at_point]; rfl, prompt_giveBack hpr hi at_point, ?_⟩)
    cases touch with
    | nothing => exact .inl rfl
    | giveBack => exact .inr rfl
    | _ => simp_all

theorem counted_go (hsound : Sound h s) (hcount : Counted c h s)
    (hpr : prompt s (.go i fault draw)) (hi : s.clients[i]? = some cl)
    (hmove : Moves c h s.now s.store fault draw cl cl' after)
    (hmade : ∀ {p sub r}, Made s p sub r → Made ⟨s.now, after, s.clients.set i cl'⟩ p sub r) :
    Counted c h ⟨s.now, after, s.clients.set i cl'⟩ := by
  have hbudget : Budget c h s.now after (s.clients.set i cl') := by
    rcases charge_cases hcount hpr hi hmove with hq | hq | hq <;> exact hq.budget hcount hi hmove.call_eq
  refine ⟨?_, hbudget.1, hbudget.2.1, hbudget.2.2, ?_⟩
  · intro p sub n
    exact counted_attempts_go hsound hcount hpr hi hmove hmade p sub n
  · intro k x d hk hd
    rcases at_set hk with ⟨-, rfl⟩ | ⟨-, hk⟩
    · have hfail : x.compared = cl.compared → ∃ a, cl.point = .done a := fun he =>
        hcount.settled i cl d hi ((failedIn_congr he d).symm.trans hd)
      cases hmove with
      | idle at_point => exact ⟨_, at_point⟩
      | refuse e _ _ | write | housekeep _ _ => exact ⟨_, rfl⟩
      | attempt =>
        simp only [Client.compare, Client.failedIn, Option.any_some, Bool.and_eq_true,
          Bool.not_eq_true'] at hd
        exact ⟨.refused .invalidCode, by simp [Client.compare, hd.1]⟩
      | draw d at_point _ | read at_point _ | clock at_point _ | failure at_point _ _ _
      | giveBack at_point | burn at_point =>
        obtain ⟨a, ha⟩ := hfail rfl
        rw [at_point] at ha
        cases ha
    · exact hcount.settled k x d hk hd

end Go

section Run

variable [DecidableEq Mac] {c : Codes} {h : Hashing Mac} {s s' : State Mac}

theorem counted_step {a : Action} (hsound : Sound h s) (hcount : Counted c h s)
    (hpr : prompt s a) (hs : step c h s a = some s') : Counted c h s' := by
  have hmade : ∀ {p sub r}, Made s p sub r → Made s' p sub r := fun hm => hm.kept hsound hs
  obtain ⟨d⟩ | ⟨call⟩ | ⟨hi, -, hmove⟩ := step_taken hs
  · refine ⟨hcount.attempts, hcount.failures, ?_, hcount.value, hcount.settled⟩
    intro i cl w hi hw
    obtain ⟨e, he, hde | hde⟩ := hcount.windows i cl w hi hw
    · exact ⟨e, he, .inl hde⟩
    · exact ⟨e, he, .inr (hde.trans (Nat.le_add_right _ _))⟩
  · -- The client that begins has counted nothing.
    obtain ⟨-, hc, -, -, ho⟩ := Call.start_point Mac call s.now
    have hfailed : ∀ d, (call.start s.now : Client Mac).failedIn d = false := by
      intro d
      simp [Client.failedIn, hc]
    have hwindow : (call.start s.now : Client Mac).point.window = none := by
      cases hp : (call.start s.now : Client Mac).point with
      | countAttempt | giveBack => simp [hp, Point.outstanding] at ho
      | _ => rfl
    have hcharged : ∀ d, (call.start s.now : Client Mac).chargedTo d = false := by
      intro d
      simp [Client.chargedTo, hwindow, hfailed]
    have htries : ∀ p sub n, tries (s.clients ++ [call.start s.now]) p sub n = tries s.clients p sub n := by
      intro p sub n
      simp [tries, List.countP_append, Client.tried, hc]
    have hcharges : ∀ p sub d,
        charges (s.clients ++ [call.start s.now]) p sub d = charges s.clients p sub d := by
      intro p sub d
      simp [charges, List.countP_append, hcharged]
    refine ⟨?_, ?_, ?_, ?_, ?_⟩
    · intro p sub n
      have hcov : Covered c h s p sub n := hcount.attempts p sub n
      exact hcov.kept hmade rfl (htries p sub n).le
    · intro p sub d
      rw [hcharges]
      exact hcount.failures p sub d
    · intro k cl d hk hd
      rcases at_append hk with hk | ⟨-, rfl⟩
      · exact hcount.windows k cl d hk hd
      · rw [hcharged d] at hd
        cases hd
    · intro p sub e he
      rw [hcharges]
      exact hcount.value p sub e he
    · intro k cl d hk hd
      rcases at_append hk with hk | ⟨-, rfl⟩
      · exact hcount.settled k cl d hk hd
      · rw [hfailed d] at hd
        cases hd
  · exact counted_go hsound hcount hpr hi hmove hmade

theorem counted_of_reach {now : Nat} {s : State Mac}
    (hr : Reach (step c h) prompt (State.initial now) s) : Counted c h s :=
  (hr.invariant (I := fun s => Sound h s ∧ Counted c h s) ⟨sound_initial now, counted_initial now⟩
    fun _ _ _ hi hpr hs => ⟨sound_step hi.1 hs, counted_step hi.1 hi.2 hpr hs⟩).2

/-- All comparisons against one code are for one purpose and subject. -/
theorem Counted.tried_le {s : State Mac} (hsound : Sound h s) (hcount : Counted c h s) (n : String) :
    (s.clients.countP fun cl => cl.tried n) ≤ c.maxAttempts := by
  by_cases hnone : ∃ cl ∈ s.clients, cl.tried n
  · obtain ⟨cl, hmem, htried⟩ := hnone
    have hmadeOf : ∀ x ∈ s.clients, x.tried n →
        ∃ r, Made s x.call.purpose x.call.subject r ∧ r.nonce = n := by
      intro x hx hxt
      obtain ⟨k, hk⟩ := List.getElem?_of_mem hx
      cases hcomp : x.compared with
      | none => simp [Client.tried, hcomp] at hxt
      | some y =>
        refine ⟨y.outstanding, hsound.judged k x y hk hcomp, ?_⟩
        simpa [Client.tried, hcomp] using hxt
    obtain ⟨r, hm, hn⟩ := hmadeOf cl hmem htried
    have hle : (s.clients.countP fun x => x.tried n)
        ≤ tries s.clients cl.call.purpose cl.call.subject n := by
      refine List.countP_mono_left ?_
      intro x hx hxt
      obtain ⟨_, hm', hn'⟩ := hmadeOf x hx hxt
      obtain ⟨hp, hsub, -⟩ := hsound.made_unique hm' hm (hn'.trans hn.symm)
      rw [Bool.and_eq_true]
      exact ⟨isFor_iff.mpr ⟨hp, hsub⟩, hxt⟩
    exact hle.trans (hcount.attempts _ _ n).1
  · have hzero : (s.clients.countP fun cl => cl.tried n) = 0 := by
      refine List.countP_eq_zero.mpr ?_
      intro x hx hxt
      exact hnone ⟨x, hx, hxt⟩
    rw [hzero]
    exact Nat.zero_le _

/-- An operation that failed compares nothing, and does not let the client go on to compare. -/
theorem fault_refuses {i : Nat} {fault : Fault} {draw : Option Draw}
    {cl cl' : Client Mac} (hi : s.clients[i]? = some cl)
    (hs : step c h s (.go i fault draw) = some s') (hi' : s'.clients[i]? = some cl')
    (hf : fault ≠ .none) :
    cl'.compared = cl.compared ∧ ∀ r n w, cl'.point ≠ .countAttempt r n w := by
  obtain _ | _ | ⟨hk, -, hmove⟩ := step_taken hs
  rw [hi] at hk
  cases hk
  rcases at_set hi' with ⟨-, rfl⟩ | ⟨hne, -⟩
  · cases hmove with
    | idle at_point => exact ⟨rfl, by simp [at_point]⟩
    | failure _ sound | attempt _ sound => exact absurd sound hf
    | _ => exact ⟨rfl, nofun⟩
  · exact absurd rfl hne

/-- **Guessing is bounded.**  In a prompt run a code is compared against at most `maxAttempts`
times, at most `maxFailures` comparisons fail for one purpose and subject while one failure
counter runs, and an operation that failed lets no comparison through. -/
theorem guesses_bounded (now : Nat) {s : State Mac}
    (hr : Reach (step c h) prompt (State.initial now) s) :
    (∀ n, (s.clients.countP fun cl => cl.tried n) ≤ c.maxAttempts)
    ∧ (∀ p sub d, (s.clients.countP fun cl => cl.isFor p sub && cl.failedIn d) ≤ c.maxFailures)
    ∧ (∀ i fault draw cl s' cl', s.clients[i]? = some cl →
      step c h s (.go i fault draw) = some s' → s'.clients[i]? = some cl' → fault ≠ .none →
      cl'.compared = cl.compared ∧ ∀ r n w, cl'.point ≠ .countAttempt r n w) := by
  have hsound := sound_of_reach hr
  have hcount := counted_of_reach hr
  refine ⟨hcount.tried_le hsound, ?_, ?_⟩
  · intro p sub d
    refine le_trans (List.countP_mono_left ?_) (hcount.failures p sub d)
    intro x _ hx
    obtain ⟨hfor, hfail⟩ := Bool.and_eq_true_iff.mp hx
    exact Bool.and_eq_true_iff.mpr ⟨hfor, chargedTo_iff.mpr (.inr hfail)⟩
  · intro i fault draw cl s' cl' hi hs hi' hf
    exact fault_refuses hi hs hi' hf

end Run

theorem guesses_bounded_two_wrong :
    ∃ s : State (List String), (s.clients.countP fun cl => cl.tried "n1") = 2
      ∧ (s.clients.countP fun cl => cl.tried "n1") ≤ Codes.brief.maxAttempts := by
  obtain ⟨s, hrun, hp⟩ : ∃ s, Reach (step .brief .plain) prompt (State.initial 0) s
      ∧ (s.clients.countP fun cl => cl.tried "n1") = 2 :=
    Run.exists_reach (issues 0 "reset" "ann" ⟨"1234", "n1"⟩
      ++ .call (.consume "reset" "ann" "0000") :: goes 1 4
      ++ .call (.consume "reset" "ann" "1111") :: goes 2 4) (by decide +kernel)
  exact ⟨s, hp, (guesses_bounded 0 hrun).1 "n1"⟩

/-- **A client that stalls escapes the count.**  In one run three codes are compared against a
code that allows two: the third client was held up until the attempt counter had expired.  In
another, four comparisons fail in a window that allows three: a right code took its count back
when its window had closed, which opened the next one a failure short. -/
theorem stalled_guess :
    (∃ s, Reach (step .brief .plain) (fun _ _ => true) (State.initial 0) s
      ∧ Codes.brief.maxAttempts < s.clients.countP fun cl => cl.tried "n1")
    ∧ ∃ s d, Reach (step .brief .plain) (fun _ _ => true) (State.initial 0) s
      ∧ Codes.brief.maxFailures
        < s.clients.countP fun cl => cl.isFor "reset" "ann" && cl.failedIn d := by
  constructor
  · exact Run.exists_reach (issues 0 "reset" "ann" ⟨"1234", "n1"⟩
      ++ .call (.consume "reset" "ann" "0000") :: goes 1 4
      ++ .call (.consume "reset" "ann" "1111") :: goes 2 3
      ++ .call (.consume "reset" "ann" "2222") :: goes 3 3
      ++ goes 2 1 ++ .tick (11 * millisecond) :: goes 3 1) (by decide +kernel)
  · rw [exists_comm]
    refine ⟨41 * millisecond, Run.exists_reach (issues 0 "reset" "ann" ⟨"1234", "n1"⟩
      ++ .call (.consume "reset" "ann" "1234") :: goes 1 4
      ++ .tick (21 * millisecond) :: goes 1 1
      ++ issues 2 "reset" "ann" ⟨"5678", "n2"⟩
      ++ .call (.consume "reset" "ann" "0000") :: goes 3 4
      ++ .call (.consume "reset" "ann" "1111") :: goes 4 4
      ++ .tick millisecond :: issues 5 "reset" "ann" ⟨"9012", "n3"⟩
      ++ .call (.consume "reset" "ann" "0000") :: goes 6 4
      ++ .call (.consume "reset" "ann" "1111") :: goes 7 4) (by decide +kernel)⟩

end Hesape.Onetime
