import Hesape.Run.Reach

/-!
# The second factor of an account

The calls on one account's enrolment and recovery codes, each in the steps that are atomic by
themselves.  `Confirm` reads the enrolment, checks the code against the secret it read, spends
the code's time step in one statement and stamps the enrolment in a transaction;
`VerifyAuthenticator` reads, checks and spends; `RegenerateRecoveryCodes` reads and then
replaces the codes in a transaction; `ConsumeRecovery` reads and then spends a code in one.
`Begin`, `Disable` and `Reset` are one transaction each.

The writes name the account and not the enrolment that was read.  `current` is the condition
that the row a write finds is the one its call read; under it the factor is sound
(`secure_of_reach`).

Secrets and sets of recovery codes are numbered as they are drawn, so no two are equal, and a
code of an authenticator knows the secret and the time step it was computed from.  The budget
of sign-in attempts only refuses calls and is left out.  What a state remembers beside the
source: who proved the secret of a row, the steps that were spent and the recovery codes that
were accepted, the last one first.
-/

namespace Hesape.Account.Factors

open List

structure Code where
  secret : Nat
  step : Nat
  deriving DecidableEq

/-- What is read and written of `user_two_factor`. -/
structure Row where
  secret : Nat
  confirmed : Bool
  lastUsedStep : Nat
  /-- the secret whose code the `Confirm` that stamped the row was given -/
  provedBy : Option Nat
  deriving DecidableEq

/-- A step that was spent: by a sign-in or by `Confirm`, for which code, on which row. -/
structure Spend where
  signIn : Bool
  code : Code
  row : Row

/-- A recovery code: the number of its set and its place in it. -/
abbrev Recovery := Nat × Nat

/-- Where a call stands. -/
inductive Point
  | confirm (code : Code)
  | confirmSpend (code : Code)
  | stamp (code : Code)
  | verify (code : Code)
  | verifySpend (code : Code)
  | regenerate
  /-- With the secret of the enrolment that was read. -/
  | replace (read : Nat)
  | consume (code : Recovery)
  | take (code : Recovery)
  | ended (accepted : Bool)
  deriving DecidableEq

structure State where
  row : Option Row
  /-- the codes stored, and whether each is spent -/
  codes : List (Recovery × Bool)
  secrets : Nat
  sets : Nat
  calls : List Point
  spends : List Spend
  /-- the codes accepted, and how many sets had been issued then -/
  accepted : List (Recovery × Nat)

def initial : State := ⟨none, [], 0, 0, [], [], []⟩

inductive Action
  | begin
  /-- `Disable`, or `Reset` -/
  | disable
  /-- a call starts -/
  | call (point : Point)
  /-- the next operation of a call -/
  | go (i : Nat)

namespace State

variable (size : Nat) (s : State)

def enabled : Bool := s.row.any Row.confirmed

/-- The row is the enrolment with that secret. -/
def holds (secret : Nat) : Bool := s.row.any fun r => r.secret = secret

def goto (i : Nat) (point : Point) : State := { s with calls := s.calls.set i point }

/-- `enrol`: only an unfinished enrolment is replaced. -/
def enrol : State :=
  if s.enabled then s
  else { s with row := some ⟨s.secrets, false, 0, none⟩, secrets := s.secrets + 1 }

/-- `disable`, undone where there is no enrolment. -/
def disable : State := if s.row.isSome then { s with row := none, codes := [] } else s

/-- `spendStep`, and what the call goes on with if the row changed. -/
def spendStep (i : Nat) (signIn : Bool) (code : Code) (next : Point) : State :=
  match s.row with
  | none => s.goto i (.ended false)
  | some r =>
    if r.lastUsedStep < code.step then
      { s with row := some { r with lastUsedStep := code.step },
               spends := ⟨signIn, code, r⟩ :: s.spends }.goto i next
    else s.goto i (.ended false)

def replaceRecoveryCodes : State :=
  { s with codes := (List.range size).map fun j => ((s.sets, j), false), sets := s.sets + 1 }

/-- The transaction of `Confirm`. -/
def stamp (i : Nat) (code : Code) : State :=
  match s.row with
  | none => s.goto i (.ended false)
  | some r =>
    if r.confirmed then s.goto i (.ended false)
    else ({ s with row := some { r with confirmed := true, provedBy := some code.secret }
      }.replaceRecoveryCodes size).goto i (.ended true)

/-- The transaction of `ConsumeRecovery`. -/
def take (i : Nat) (code : Recovery) : State :=
  if (code, false) ∈ s.codes then
    { s with codes := s.codes.map fun c : Recovery × Bool => if c.1 = code then (code, true) else c,
             accepted := (code, s.sets) :: s.accepted }.goto i (.ended true)
  else s.goto i (.ended false)

/-- The next operation of a call. -/
def next (i : Nat) : Point → Option State
  | .confirm code =>
    some (s.goto i (if s.holds code.secret && !s.enabled then .confirmSpend code else .ended false))
  | .confirmSpend code => some (s.spendStep i false code (.stamp code))
  | .stamp code => some (s.stamp size i code)
  | .verify code =>
    some (s.goto i (if s.holds code.secret && s.enabled then .verifySpend code else .ended false))
  | .verifySpend code => some (s.spendStep i true code (.ended true))
  | .regenerate =>
    some (s.goto i (match s.row with
      | some r => if r.confirmed then .replace r.secret else .ended false
      | none => .ended false))
  | .replace _ => some ((s.replaceRecoveryCodes size).goto i (.ended true))
  | .consume code => some (s.goto i (if s.enabled then .take code else .ended false))
  | .take code => some (s.take i code)
  | .ended _ => none

/-- A call starts with its read. -/
def startable : Point → Bool
  | .confirm _ | .verify _ | .regenerate | .consume _ => true
  | _ => false

def step : Action → Option State
  | .begin => some s.enrol
  | .disable => some s.disable
  | .call point => if startable point then some { s with calls := s.calls ++ [point] } else none
  | .go i => s.calls[i]?.bind fun point => s.next size i point

end State

/-- The enrolment the next write of a call was read from. -/
def Point.written : Point → Option Nat
  | .confirmSpend code | .stamp code | .verifySpend code => some code.secret
  | .replace read => some read
  | _ => none

/-- A write finds the enrolment that its call read. -/
def current (s : State) : Action → Bool
  | .go i => (s.calls[i]?.bind Point.written).all s.holds
  | _ => true

/-- **What a second factor promises.** -/
structure Secure (s : State) : Prop where
  proved : ∀ r, s.row = some r → r.confirmed = true → r.provedBy = some r.secret
  signIns : ∀ e ∈ s.spends, e.signIn = true → e.row.secret = e.code.secret ∧ e.row.confirmed = true
  increasing : s.spends.Pairwise fun later earlier =>
    later.code.secret = earlier.code.secret → earlier.code.step < later.code.step
  once : (s.accepted.map Prod.fst).Nodup
  last : ∀ a ∈ s.accepted, a.1.1 + 1 = a.2
  stored : s.codes ≠ [] → s.enabled = true

/-! ### The enrolment -/

/-- The enrolment a call takes for confirmed. -/
def Point.trusts : Point → Option Nat
  | .verifySpend code => some code.secret
  | .replace read => some read
  | _ => none

/-- What holds of the row and of the calls that have read it. -/
structure Enrolment (row : Option Row) (secrets : Nat) (spends : List Spend) (calls : List Point) :
    Prop where
  drawn : ∀ r, row = some r → r.secret < secrets
  proved : ∀ r, row = some r → r.confirmed = true → r.provedBy = some r.secret
  past : ∀ e ∈ spends, e.code.secret < secrets
    ∧ ∀ r, row = some r → r.secret = e.code.secret → e.code.step ≤ r.lastUsedStep
  signIns : ∀ e ∈ spends, e.signIn = true → e.row.secret = e.code.secret ∧ e.row.confirmed = true
  increasing : spends.Pairwise fun later earlier =>
    later.code.secret = earlier.code.secret → earlier.code.step < later.code.step
  trusted : ∀ p ∈ calls, ∀ σ, p.trusts = some σ →
    σ < secrets ∧ ∀ r, row = some r → r.secret = σ → r.confirmed = true

namespace Enrolment

variable {row : Option Row} {r : Row} {secrets : Nat} {spends : List Spend} {calls : List Point}

variable (h : Enrolment row secrets spends calls)
include h

theorem calls_of {calls' : List Point} {p : Point}
    (hmem : ∀ q ∈ calls', q ∈ calls ∨ q = p) (hp : ∀ σ, p.trusts = some σ →
      σ < secrets ∧ ∀ r, row = some r → r.secret = σ → r.confirmed) :
    Enrolment row secrets spends calls' := by
  refine ⟨h.drawn, h.proved, h.past, h.signIns, h.increasing, fun q hq σ hσ => ?_⟩
  rcases hmem q hq with hq | rfl
  · exact h.trusted q hq σ hσ
  · exact hp σ hσ

/-- A new enrolment: its secret is one nobody has read. -/
theorem enrol :
    Enrolment (some ⟨secrets, false, 0, none⟩) (secrets + 1) spends calls := by
  refine ⟨fun r hr => ?_, fun r hr hc => ?_, fun e he => ?_, h.signIns, h.increasing,
    fun p hp σ hσ => ?_⟩
  · cases hr
    exact Nat.lt_succ_self _
  · cases hr
    cases hc
  · have hlt := (h.past e he).1
    refine ⟨by omega, fun r hr heq => ?_⟩
    cases hr
    exact absurd heq (Nat.ne_of_gt hlt)
  · have hlt := (h.trusted p hp σ hσ).1
    refine ⟨by omega, fun r hr heq => ?_⟩
    cases hr
    exact absurd heq (Nat.ne_of_gt hlt)

theorem remove : Enrolment none secrets spends calls :=
  ⟨nofun, nofun, fun e he => ⟨(h.past e he).1, nofun⟩, h.signIns, h.increasing,
    fun p hp σ hσ => ⟨(h.trusted p hp σ hσ).1, nofun⟩⟩

omit h

theorem stamp (h : Enrolment (some r) secrets spends calls) :
    Enrolment (some { r with confirmed := true, provedBy := some r.secret }) secrets spends calls := by
  refine ⟨fun q hq => ?_, fun q hq _ => ?_, fun e he => ⟨(h.past e he).1, fun q hq heq => ?_⟩,
    h.signIns, h.increasing, fun p hp σ hσ => ⟨(h.trusted p hp σ hσ).1, fun q hq _ => ?_⟩⟩
  · cases hq
    exact h.drawn r rfl
  · cases hq
    rfl
  · cases hq
    exact (h.past e he).2 r rfl heq
  · cases hq
    rfl

/-- A step is spent on the row the code was checked against. -/
theorem spend (h : Enrolment (some r) secrets spends calls) {code : Code} {signIn : Bool}
    (hsecret : r.secret = code.secret) (hstep : r.lastUsedStep < code.step)
    (hsign : signIn → r.confirmed) :
    Enrolment (some { r with lastUsedStep := code.step }) secrets (⟨signIn, code, r⟩ :: spends)
      calls := by
  refine ⟨fun q hq => ?_, fun q hq hc => ?_, fun e he => ?_, fun e he hs => ?_,
    pairwise_cons.mpr ⟨fun e he heq => ?_, h.increasing⟩,
    fun p hp σ hσ => ⟨(h.trusted p hp σ hσ).1, fun q hq heq => ?_⟩⟩
  · cases hq
    exact h.drawn r rfl
  · cases hq
    exact h.proved r rfl hc
  · rcases mem_cons.mp he with rfl | he
    · refine ⟨hsecret ▸ h.drawn r rfl, fun q hq _ => ?_⟩
      cases hq
      exact Nat.le_refl _
    · obtain ⟨hlt, hpast⟩ := h.past e he
      refine ⟨hlt, fun q hq heq => ?_⟩
      cases hq
      exact Nat.le_of_lt (Nat.lt_of_le_of_lt (hpast r rfl heq) hstep)
  · rcases mem_cons.mp he with rfl | he
    · exact ⟨hsecret, hsign hs⟩
    · exact h.signIns e he hs
  · exact Nat.lt_of_le_of_lt ((h.past e he).2 r rfl (hsecret.trans heq)) hstep
  · cases hq
    exact (h.trusted p hp σ hσ).2 r rfl heq

end Enrolment

/-! ### The recovery codes -/

/-- What holds of the codes: they are of the last set, and none that is unspent was accepted. -/
structure Issued (codes : List (Recovery × Bool)) (sets : Nat) (accepted : List (Recovery × Nat)) :
    Prop where
  stored : ∀ c ∈ codes, c.1.1 + 1 = sets
  unspent : ∀ c, (c, false) ∈ codes → c ∉ accepted.map Prod.fst
  past : ∀ a ∈ accepted, a.1.1 < sets ∧ a.1.1 + 1 = a.2
  once : (accepted.map Prod.fst).Nodup

namespace Issued

variable {codes : List (Recovery × Bool)} {sets : Nat} {accepted : List (Recovery × Nat)}

variable (h : Issued codes sets accepted)
include h

theorem remove : Issued [] sets accepted :=
  ⟨nofun, nofun, h.past, h.once⟩

theorem replace (size : Nat) :
    Issued ((range size).map fun j => ((sets, j), false)) (sets + 1) accepted := by
  refine ⟨fun c hc => ?_, fun c hc hmem => ?_, fun a ha => ?_, h.once⟩
  · obtain ⟨j, -, rfl⟩ := mem_map.mp hc
    rfl
  · obtain ⟨j, -, hj⟩ := mem_map.mp hc
    obtain ⟨a, ha, rfl⟩ := mem_map.mp hmem
    have hlt := (h.past a ha).1
    rw [← (Prod.mk.inj hj).1] at hlt
    exact absurd hlt (Nat.lt_irrefl _)
  · have := h.past a ha
    exact ⟨by omega, this.2⟩

theorem take {code : Recovery} (hc : (code, false) ∈ codes) :
    Issued (codes.map fun c => if c.1 = code then (code, true) else c) sets
      ((code, sets) :: accepted) := by
  have hold := h.stored _ hc
  refine ⟨fun c hmem => ?_, fun c hmem hacc => ?_, fun a ha => ?_,
    nodup_cons.mpr ⟨h.unspent code hc, h.once⟩⟩
  · obtain ⟨d, hd, rfl⟩ := mem_map.mp hmem
    split
    · exact hold
    · exact h.stored d hd
  · obtain ⟨d, hd, he⟩ := mem_map.mp hmem
    split at he
    · cases he
    · next hne =>
      subst he
      rcases mem_cons.mp hacc with rfl | hacc
      · exact hne rfl
      · exact h.unspent c hd hacc
  · rcases mem_cons.mp ha with rfl | ha
    · exact ⟨Nat.lt_of_lt_of_eq (Nat.lt_succ_self _) hold, hold⟩
    · exact h.past a ha

end Issued

/-! ### Steps -/

/-- What holds in every run whose writes are current. -/
structure Kept (s : State) : Prop where
  enrolment : Enrolment s.row s.secrets s.spends s.calls
  issued : Issued s.codes s.sets s.accepted
  stored : s.codes ≠ [] → s.enabled = true

section Steps

variable {size : Nat} {s t : State} {i : Nat} {p : Point}

theorem Kept.goto (h : Kept s) (hp : ∀ σ, p.trusts = some σ →
    σ < s.secrets ∧ ∀ r, s.row = some r → r.secret = σ → r.confirmed) : Kept (s.goto i p) :=
  ⟨h.enrolment.calls_of (fun _ hq => mem_or_eq_of_mem_set hq) hp, h.issued, h.stored⟩

theorem Kept.leave (h : Kept s) (hp : p.trusts = none) : Kept (s.goto i p) :=
  h.goto fun σ hσ => by rw [hp] at hσ; cases hσ

theorem State.holds_iff {secret : Nat} : s.holds secret ↔ ∃ r, s.row = some r ∧ r.secret = secret := by
  simp [State.holds, Option.any_eq_true]

theorem State.enabled_iff : s.enabled ↔ ∃ r, s.row = some r ∧ r.confirmed := by
  simp [State.enabled, Option.any_eq_true]

/-- A call that reads a confirmed enrolment may trust it. -/
theorem Kept.trusting (h : Kept s) {r : Row} (hr : s.row = some r) (hc : r.confirmed)
    (hp : ∀ σ, p.trusts = some σ → σ = r.secret) : Kept (s.goto i p) := by
  refine h.goto fun σ hσ => ?_
  rw [hp σ hσ]
  refine ⟨h.enrolment.drawn r hr, fun q hq _ => ?_⟩
  rw [hr] at hq
  cases hq
  exact hc

theorem kept_spendStep (h : Kept s) {signIn : Bool} {code : Code} (hcur : s.holds code.secret)
    (hsign : signIn → s.enabled) (hp : p.trusts = none) :
    Kept (s.spendStep i signIn code p) := by
  obtain ⟨r, hr, hsecret⟩ := State.holds_iff.mp hcur
  unfold State.spendStep
  rw [hr]
  dsimp only
  split
  · next hstep =>
    have hsign : signIn → r.confirmed := fun hs => by
      obtain ⟨q, hq, hc⟩ := State.enabled_iff.mp (hsign hs)
      rw [hr] at hq
      cases hq
      exact hc
    refine Kept.leave ⟨(hr ▸ h.enrolment).spend hsecret hstep hsign, h.issued, fun hne => ?_⟩ hp
    obtain ⟨q, hq, hc⟩ := State.enabled_iff.mp (h.stored hne)
    rw [hr] at hq
    cases hq
    exact State.enabled_iff.mpr ⟨_, rfl, hc⟩
  · exact h.leave rfl

theorem kept_stamp (h : Kept s) {code : Code} (hcur : s.holds code.secret) :
    Kept (s.stamp size i code) := by
  obtain ⟨r, hr, hsecret⟩ := State.holds_iff.mp hcur
  unfold State.stamp
  rw [hr]
  dsimp only
  split
  · exact h.leave rfl
  · rw [← hsecret]
    exact Kept.leave ⟨(hr ▸ h.enrolment).stamp, h.issued.replace size, fun _ => rfl⟩ rfl

/-- **One step.** -/
theorem kept_step {a : Action} (h : Kept s) (hok : current s a) (ht : s.step size a = some t) :
    Kept t := by
  cases a with
  | begin =>
    cases ht
    unfold State.enrol
    split
    · exact h
    · next hnot => exact ⟨h.enrolment.enrol, h.issued, fun hne => absurd (h.stored hne) hnot⟩
  | disable =>
    cases ht
    unfold State.disable
    split
    · exact ⟨h.enrolment.remove, h.issued.remove, fun hne => absurd rfl hne⟩
    · exact h
  | call point =>
    simp only [State.step] at ht
    split at ht
    · next hstart =>
      cases ht
      refine ⟨h.enrolment.calls_of (p := point) (fun q hq => ?_) (fun σ hσ => ?_), h.issued, h.stored⟩
      · exact (mem_append.mp hq).imp_right mem_singleton.mp
      · cases point <;> simp [State.startable, Point.trusts] at hstart hσ
    · cases ht
  | go =>
    obtain ⟨point, hpoint, ht⟩ := Option.bind_eq_some_iff.mp ht
    have hmem := mem_of_getElem? hpoint
    simp only [current, hpoint, Option.bind_some] at hok
    cases point with
    | confirm | consume =>
      cases ht
      split <;> exact h.leave rfl
    | confirmSpend =>
      cases ht
      exact kept_spendStep h hok nofun rfl
    | stamp =>
      cases ht
      exact kept_stamp h hok
    | verify =>
      cases ht
      split
      · next hread =>
        obtain ⟨hheld, hon⟩ := Bool.and_eq_true_iff.mp hread
        obtain ⟨r, hr, hsecret⟩ := State.holds_iff.mp hheld
        obtain ⟨q, hq, hc⟩ := State.enabled_iff.mp hon
        rw [hr] at hq
        cases hq
        refine h.trusting hr hc fun σ hσ => ?_
        cases hσ
        exact hsecret.symm
      · exact h.leave rfl
    | verifySpend =>
      cases ht
      refine kept_spendStep h hok (fun _ => ?_) rfl
      obtain ⟨r, hr, hsecret⟩ := State.holds_iff.mp hok
      exact State.enabled_iff.mpr ⟨r, hr, (h.enrolment.trusted _ hmem _ rfl).2 r hr hsecret⟩
    | regenerate =>
      cases ht
      cases hr : s.row with
      | none => exact h.leave rfl
      | some =>
        dsimp only
        split
        · next hc => exact h.trusting hr hc fun σ hσ => by cases hσ; rfl
        · exact h.leave rfl
    | replace =>
      cases ht
      obtain ⟨r, hr, hsecret⟩ := State.holds_iff.mp hok
      have hc := (h.enrolment.trusted _ hmem _ rfl).2 r hr hsecret
      exact Kept.leave ⟨h.enrolment, h.issued.replace size, fun _ => State.enabled_iff.mpr ⟨r, hr, hc⟩⟩ rfl
    | take =>
      cases ht
      unfold State.take
      split
      · next hc =>
        refine Kept.leave ⟨h.enrolment, h.issued.take hc, fun _ => h.stored fun he => ?_⟩ rfl
        rw [he] at hc
        cases hc
      · exact h.leave rfl
    | ended => cases ht

end Steps

/-- **A second factor is sound while writes are current**: in every run whose writes find the
enrolment their call read. -/
theorem secure_of_reach {size : Nat} {s : State}
    (h : Run.Reach (State.step size) current initial s) : Secure s := by
  have hinit : Kept initial :=
    ⟨⟨nofun, nofun, nofun, nofun, .nil, nofun⟩, ⟨nofun, nofun, nofun, .nil⟩, fun h => absurd rfl h⟩
  have hkept : Kept s := h.invariant hinit fun _ _ _ hs hok ht => kept_step hs hok ht
  exact ⟨hkept.enrolment.proved, hkept.enrolment.signIns, hkept.enrolment.increasing,
    hkept.issued.once, fun a ha => (hkept.issued.past a ha).2, hkept.stored⟩

/-- An enrolment that is confirmed, used to sign in, and whose recovery code is spent. -/
theorem secure_of_use : ∃ s : State, s.spends.length = 2 ∧ s.accepted.length = 1 ∧ Secure s := by
  obtain ⟨s, hrun, hp⟩ : ∃ s, Run.Reach (State.step 8) current initial s
      ∧ s.spends.length = 2 ∧ s.accepted.length = 1 :=
    Run.exists_reach [.begin, .call (.confirm ⟨0, 5⟩), .go 0, .go 0, .go 0,
      .call (.verify ⟨0, 6⟩), .go 1, .go 1, .call (.consume (0, 3)), .go 2, .go 2]
      (by decide +kernel)
  exact ⟨s, hp.1, hp.2, secure_of_reach hrun⟩

/-- **A second factor that was never proved, a code that works twice, codes without a factor.**
A `Begin` between the read of a `Confirm` and its writes: the new secret is confirmed by a code
of the old one.  A `Disable` and a `Begin` between the read of a sign-in and its spending: the
step another sign-in has spent is spent again, on an enrolment that is not confirmed.  A
`Disable` between the read and the transaction of `RegenerateRecoveryCodes`. -/
theorem unproved_repeated_orphaned :
    (Run.follow (State.step 8) (fun _ _ => true) initial
      [.begin, .call (.confirm ⟨0, 5⟩), .go 0, .begin, .go 0, .go 0]).any
      (fun s => s.row = some ⟨1, true, 5, some 0⟩) = true
    ∧ (Run.follow (State.step 8) (fun _ _ => true) initial
      [.begin, .call (.confirm ⟨0, 5⟩), .go 0, .go 0, .go 0, .call (.verify ⟨0, 6⟩),
        .call (.verify ⟨0, 6⟩), .go 1, .go 2, .go 1, .disable, .begin, .go 2]).any
      (fun s => s.calls.drop 1 = [.ended true, .ended true]
        && (s.spends.take 2).map (fun e => (e.signIn, e.code, e.row.confirmed))
          = [(true, ⟨0, 6⟩, false), (true, ⟨0, 6⟩, true)]) = true
    ∧ (Run.follow (State.step 8) (fun _ _ => true) initial
      [.begin, .call (.confirm ⟨0, 5⟩), .go 0, .go 0, .go 0, .call .regenerate, .go 1, .disable,
        .go 1]).any
      (fun s => s.row = none && s.codes.length = 8) = true := by
  refine ⟨?_, ?_, ?_⟩ <;> decide +kernel

end Hesape.Account.Factors
