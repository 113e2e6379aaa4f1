import Hesape.Run.Reach

/-!
# Deliveries received

A receiver with a `SyncProcessor` processes a call before it answers it.  Copies of one delivery carry
one key, and the call's row is kept under it: the copy that inserts the row processes the call, and every
other one reads the row.  A row that is processed answers the copy; a row that failed is claimed by a
conditional update from `failed` to `received`, and the copy that wins it processes the call again; any
other copy is told to come back.

The status is record, lock and outcome at once.  That it is a lock is enough for the exclusion: a call is
being processed only while its row is `received`, and what makes it so, the insert and the claim, can be
done by one copy only (`Sound`).  It is not enough for the other direction.  A processing that is cut off
leaves `received` behind, and so does a second failure: the outcome is saved by the columns that differ
from what was read, and the copy that claimed the row had read `failed`.
-/

namespace Hesape.Webhook.Client

open Run
open List
open Function

inductive CallStatus
  | received
  | processed
  | failed
deriving DecidableEq

/-- A call, by the columns its processing goes by. -/
structure Call where
  status : CallStatus
  attempts : Nat
  processedAt : Nat
  updatedAt : Nat
deriving DecidableEq

/-- The answer a `SyncProcessor` gives the sender. -/
structure ProcessResult where
  status : Nat
  contentType : String
  body : Option String
deriving DecidableEq

/-- What a processing comes to. -/
inductive Outcome
  | failure
  | result (r : ProcessResult)
deriving DecidableEq

/-- What a receiver answers its refusals with. -/
structure Statuses where
  unavailable : Nat := 503
  failed : Nat := 500

inductive Answer
  | refusal (status : Nat) (text : String)
  | written (status : Nat) (contentType : Option String) (body : Option String)
deriving DecidableEq

namespace Call

/-- A call as `store` inserts it. -/
def new (now : Nat) : Call := ⟨.received, 0, now, now⟩

def processed (c : Call) (now : Nat) : Call := { c with status := .processed, processedAt := now, updatedAt := now }

def failed (c : Call) (now : Nat) : Call := { c with status := .failed, updatedAt := now }

/-- `runSync`, but for its save: the call as it is after its processing. -/
def runSync (c : Call) (now : Nat) (outcome : Outcome) : Call :=
  let c := { c with attempts := c.attempts + 1 }
  match outcome with
  | .failure => c.failed now
  | .result r => if 400 ≤ r.status then c.failed now else c.processed now

/-- `Save` writes the columns that differ from what was read. -/
def save (row original record : Call) : Call where
  status := if record.status = original.status then row.status else record.status
  attempts := if record.attempts = original.attempts then row.attempts else record.attempts
  processedAt := if record.processedAt = original.processedAt then row.processedAt else record.processedAt
  updatedAt := if record.updatedAt = original.updatedAt then row.updatedAt else record.updatedAt

end Call

/-- The answer to a copy that was processed. -/
def Outcome.answer (statuses : Statuses) : Outcome → Answer
  | .failure => .refusal statuses.failed "webhook: the call could not be processed"
  | .result r =>
    .written (if r.status = 0 then 200 else r.status)
      (r.body.map fun _ => if r.contentType = "" then "application/json" else r.contentType) r.body

/-- The operation a request performs next.  `run` is the processing itself, and `save` what follows it;
both keep the call as it was read or stored, beside the one in hand. -/
inductive Point
  | store
  | read
  | retake (held : Call)
  | run (original record : Call)
  | save (original record : Call) (outcome : Outcome)
  /-- Answered without being processed. -/
  | turned (answer : Answer)
  /-- Answered after its processing. -/
  | answered (answer : Answer)
  | error
  /-- Cut off with its process. -/
  | dead
deriving DecidableEq

/-- A delivery's key.  A call without one has no copies. -/
abbrev Key := { key : String // key ≠ "" }

structure Request where
  key : Key
  point : Point

/-- The request's processing is in progress. -/
def Request.processing (r : Request) : Bool :=
  match r.point with
  | .run _ _ => true
  | .save _ _ _ => true
  | _ => false

/-- The calls of one receiver and tenant, by their keys, of which each is unique, and the requests.  The
keys of which a processing was saved as processed are remembered beside them. -/
structure State where
  now : Nat
  calls : Key → Option Call
  requests : List Request
  succeeded : List Key

inductive Action
  | tick (d : Nat)
  | arrive (key : Key)
  /-- A request performs its next operation; `outcome` is what its processing comes to, should it run. -/
  | act (i : Nat) (outcome : Outcome)
  | die (i : Nat)

namespace State

variable (statuses : Statuses) (s : State)

def goto (i : Nat) (r : Request) (point : Point) : State :=
  { s with requests := s.requests.set i { r with point := point } }

def put (key : Key) (c : Call) : State := { s with calls := Function.update s.calls key (some c) }

def unavailable : Answer := .refusal statuses.unavailable "webhook: this delivery is being processed"

/-- `store`'s insert, which the unique index refuses when the key is held. -/
def store (i : Nat) (r : Request) : State :=
  match s.calls r.key with
  | none => (s.put r.key (.new s.now)).goto i r (.run (.new s.now) (.new s.now))
  | some _ => s.goto i r .read

/-- The read that follows, and the answer to a copy that has nothing to claim. -/
def read (i : Nat) (r : Request) : State :=
  match s.calls r.key with
  | none => s.goto i r .error
  | some held =>
    match held.status with
    | .failed => s.goto i r (.retake held)
    | .processed => s.goto i r (.turned (.written 200 none none))
    | .received => s.goto i r (.turned (unavailable statuses))

/-- `retake`'s conditional update. -/
def retake (i : Nat) (r : Request) (held : Call) : State :=
  match s.calls r.key with
  | none => s.goto i r (.turned (unavailable statuses))
  | some c =>
    if c.status = .failed then
      (s.put r.key { c with status := .received, updatedAt := s.now }).goto i r
        (.run held { held with status := .received })
    else s.goto i r (.turned (unavailable statuses))

/-- The save of an outcome. -/
def save (i : Nat) (r : Request) (original record : Call) (outcome : Outcome) : State :=
  match s.calls r.key with
  | none => s.goto i r (.answered (outcome.answer statuses))
  | some c =>
    goto { s.put r.key (c.save original record) with
           succeeded := if record.status = .processed then r.key :: s.succeeded else s.succeeded } i r
      (.answered (outcome.answer statuses))

def act (i : Nat) (r : Request) (outcome : Outcome) : Option State :=
  match r.point with
  | .store => some (s.store i r)
  | .read => some (s.read statuses i r)
  | .retake held => some (s.retake statuses i r held)
  | .run original record => some (s.goto i r (.save original (record.runSync s.now outcome) outcome))
  | .save original record outcome => some (s.save statuses i r original record outcome)
  | _ => none

def step : Action → Option State
  | .tick d => some { s with now := s.now + d }
  | .arrive key => some { s with requests := s.requests ++ [⟨key, .store⟩] }
  | .act i outcome => s.requests[i]?.bind fun r => s.act statuses i r outcome
  | .die i => s.requests[i]?.map fun r => s.goto i r .dead

/-- No call yet. -/
def initial (now : Nat) : State := ⟨now, fun _ => none, [], []⟩

end State

/-! ### The lock -/

/-- What holds in every run. -/
structure Sound (s : State) : Prop where
  alone : ∀ (i j : Nat) (r q : Request), s.requests[i]? = some r → s.requests[j]? = some q →
    r.processing = true → q.processing = true → r.key = q.key → i = j
  held : ∀ r ∈ s.requests, r.processing = true → ∃ c, s.calls r.key = some c ∧ c.status = .received
  done : ∀ key, key ∈ s.succeeded ↔ ∃ c, s.calls key = some c ∧ c.status = .processed
  turned : ∀ r ∈ s.requests, ∀ kind body, r.point = .turned (.written 200 kind body) → r.key ∈ s.succeeded
  claims : ∀ r ∈ s.requests, ∀ c, r.point = .retake c → c.status = .failed ∧ (s.calls r.key).isSome
  runs : ∀ r ∈ s.requests, ∀ original record, r.point = .run original record → original.status ≠ .processed
  saves : ∀ r ∈ s.requests, ∀ original record outcome, r.point = .save original record outcome →
    original.status ≠ .processed ∧ record.status ≠ .received

theorem sound_initial (now : Nat) : Sound (State.initial now) where
  alone := fun _ _ _ _ hi => by simp [State.initial] at hi
  held := nofun
  done := fun key => by simp [State.initial]
  turned := nofun
  claims := nofun
  runs := nofun
  saves := nofun

variable {s : State}

theorem isSome_put {key other : Key} {c : Call} (h : (s.calls other).isSome) :
    ((s.put key c).calls other).isSome := by
  by_cases hkey : other = key
  · rw [hkey, show (s.put key c).calls key = some c from update_self ..]
    rfl
  · rwa [show (s.put key c).calls other = s.calls other from update_of_ne hkey _ _]

theorem status_runSync (c : Call) (now : Nat) (outcome : Outcome) : (c.runSync now outcome).status ≠ .received := by
  cases outcome with
  | failure => nofun
  | result =>
    unfold Call.runSync
    simp only
    split <;> nofun

/-- Where a request may go: what it claims had failed, what it runs was not processed, and what it is
answered is true. -/
structure Fits (s : State) (r : Request) : Prop where
  turned : ∀ kind body, r.point = .turned (.written 200 kind body) → r.key ∈ s.succeeded
  claims : ∀ c, r.point = .retake c → c.status = .failed ∧ (s.calls r.key).isSome
  runs : ∀ original record, r.point = .run original record → original.status ≠ .processed
  saves : ∀ original record outcome, r.point = .save original record outcome →
    original.status ≠ .processed ∧ record.status ≠ .received

namespace Sound

variable {s : State} {i : Nat} {r : Request}

/-- A request moves, and processes a call only if it did before. -/
theorem goto (h : Sound s) (hr : s.requests[i]? = some r) {point : Point} (hfits : Fits s { r with point := point })
    (hprocessing : Request.processing { r with point := point } → r.processing) :
    Sound (s.goto i r point) := by
  have hmem := mem_of_getElem? hr
  have hat : ∀ {j : Nat} {q : Request}, (s.requests.set i { r with point := point })[j]? = some q →
      q.processing → ∃ q', s.requests[j]? = some q' ∧ q'.processing ∧ q'.key = q.key := by
    intro j q hj hq
    rcases at_set hj with ⟨rfl, rfl⟩ | ⟨-, hj⟩
    · exact ⟨r, hr, hprocessing hq, rfl⟩
    · exact ⟨q, hj, hq, rfl⟩
  refine ⟨fun j k q p hj hk hq hp hkey => ?_, forall_set h.held fun hp => h.held r hmem (hprocessing hp), h.done,
    forall_set h.turned hfits.turned, forall_set h.claims hfits.claims, forall_set h.runs hfits.runs,
    forall_set h.saves hfits.saves⟩
  obtain ⟨q', hj', hq', hqk⟩ := hat hj hq
  obtain ⟨p', hk', hp', hpk⟩ := hat hk hp
  exact h.alone j k q' p' hj' hk' hq' hp' (hqk.trans (hkey.trans hpk.symm))

variable {c original record : Call}

/-- **The lock is taken**: a row that is not `received` or processed becomes `received`, and the request
that made it so begins its processing. -/
theorem take (h : Sound s) (hc : c.status = .received)
    (hrow : ∀ d, s.calls r.key = some d → d.status = .failed) (ho : original.status ≠ .processed) :
    Sound ((s.put r.key c).goto i r (.run original record)) := by
  have hnone : ∀ q ∈ s.requests, q.processing → q.key ≠ r.key := by
    intro q hq hp hkey
    obtain ⟨d, hd, hs⟩ := h.held q hq hp
    rw [hrow d (hkey ▸ hd)] at hs
    cases hs
  have hother : ∀ {key}, key ≠ r.key → (s.put r.key c).calls key = s.calls key := fun hne => update_of_ne hne _ _
  have hself : (s.put r.key c).calls r.key = some c := update_self ..
  refine ⟨fun j k q p hj hk hq hp hkey => ?_, forall_set (fun q hq hp => ?_) fun _ => ⟨c, hself, hc⟩, fun key => ?_,
    forall_set h.turned nofun, forall_set (fun q hq d hp => (h.claims q hq d hp).imp_right isSome_put) nofun,
    forall_set h.runs fun o d hp => ?_, forall_set h.saves nofun⟩
  · rcases at_set hj with ⟨hji, hqr⟩ | ⟨-, hj'⟩ <;> rcases at_set hk with ⟨hki, hpr⟩ | ⟨-, hk'⟩
    · exact hji.trans hki.symm
    · rw [hqr] at hkey
      exact absurd hkey.symm (hnone p (mem_of_getElem? hk') hp)
    · rw [hpr] at hkey
      exact absurd hkey (hnone q (mem_of_getElem? hj') hq)
    · exact h.alone j k q p hj' hk' hq hp hkey
  · obtain ⟨d, hd, hs⟩ := h.held q hq hp
    exact ⟨d, (hother (hnone q hq hp)).trans hd, hs⟩
  · show key ∈ s.succeeded ↔ ∃ d, (s.put r.key c).calls key = some d ∧ d.status = .processed
    rw [h.done key]
    by_cases hkey : key = r.key
    · -- The row was not processed, and is not now.
      subst hkey
      rw [hself]
      constructor
      · rintro ⟨d, hd, hs⟩
        rw [hrow d hd] at hs
        cases hs
      · rintro ⟨d, hd, hs⟩
        cases hd
        rw [hc] at hs
        cases hs
    · rw [hother hkey]
  · cases hp
    exact ho

/-- The status a save leaves behind. -/
theorem status_save (hc : c.status = .received) (ho : original.status ≠ .processed) :
    (c.save original record).status = .processed ↔ record.status = .processed := by
  unfold Call.save
  split
  · next heq =>
    rw [hc, heq]
    exact ⟨nofun, fun hp => absurd hp ho⟩
  · exact Iff.rfl

variable (h : Sound s) (hr : s.requests[i]? = some r)
include h hr

variable {statuses : Statuses}

/-- **The lock is left**: the outcome of a processing is saved. -/
theorem save {original record : Call}
    {outcome : Outcome} (hpoint : r.point = .save original record outcome) :
    Sound (s.save statuses i r original record outcome) := by
  have hmem := mem_of_getElem? hr
  have hprocessing : r.processing := by rw [Request.processing, hpoint]
  obtain ⟨c, hc, hs⟩ := h.held r hmem hprocessing
  obtain ⟨ho, -⟩ := h.saves r hmem original record outcome hpoint
  have hother : ∀ {key}, key ≠ r.key → (s.put r.key (c.save original record)).calls key = s.calls key :=
    fun hne => update_of_ne hne _ _
  have hself : (s.put r.key (c.save original record)).calls r.key = some (c.save original record) :=
    update_self ..
  unfold State.save
  rw [hc]
  -- The others process other calls.
  have halone : ∀ {j : Nat} {q : Request}, j ≠ i → s.requests[j]? = some q → q.processing → q.key ≠ r.key :=
    fun hne hj hq hkey => hne (h.alone _ i _ r hj hr hq hprocessing hkey)
  have hsucceeded : ∀ key, key ∈ s.succeeded →
      key ∈ (if record.status = .processed then r.key :: s.succeeded else s.succeeded) := by
    intro key hk
    split
    · exact mem_cons_of_mem _ hk
    · exact hk
  refine ⟨fun j k q p hj hk hq hp hkey => ?_, fun q hq hp => ?_, fun key => ?_,
    forall_set (fun q hq kind body hp => hsucceeded _ (h.turned q hq kind body hp)) nofun,
    forall_set (fun q hq d hp => (h.claims q hq d hp).imp_right isSome_put) nofun,
    forall_set h.runs nofun, forall_set h.saves nofun⟩
  · rcases at_set hj with ⟨-, rfl⟩ | ⟨-, hj⟩
    · cases hq
    · rcases at_set hk with ⟨-, rfl⟩ | ⟨-, hk⟩
      · cases hp
      · exact h.alone j k q p hj hk hq hp hkey
  · obtain ⟨j, hj⟩ := mem_iff_getElem?.mp hq
    rcases at_set hj with ⟨-, rfl⟩ | ⟨hne, hj⟩
    · cases hp
    · obtain ⟨d, hd, hds⟩ := h.held q (mem_of_getElem? hj) hp
      exact ⟨d, (hother (halone hne hj hp)).trans hd, hds⟩
  · show key ∈ (if record.status = .processed then r.key :: s.succeeded else s.succeeded) ↔
      ∃ d, (s.put r.key (c.save original record)).calls key = some d ∧ d.status = .processed
    by_cases hkey : key = r.key
    · subst hkey
      have hnot : r.key ∉ s.succeeded := by
        rw [h.done]
        rintro ⟨d, hd, hds⟩
        rw [hc] at hd
        cases hd
        rw [hs] at hds
        cases hds
      rw [hself]
      have hrow : (∃ d, some (c.save original record) = some d ∧ d.status = .processed) ↔ record.status = .processed := by
        rw [← status_save hs ho]
        exact ⟨fun ⟨d, hd, hds⟩ => by cases hd; exact hds, fun hds => ⟨_, rfl, hds⟩⟩
      rw [hrow]
      split
      · next hp => exact ⟨fun _ => hp, fun _ => mem_cons_self⟩
      · next hp => exact ⟨fun hin => absurd hin hnot, fun hin => absurd hin hp⟩
    · rw [hother hkey, ← h.done key]
      split
      · exact ⟨fun hin => (mem_cons.mp hin).resolve_left hkey, mem_cons_of_mem _⟩
      · exact Iff.rfl

/-- A request goes where nothing has to be known of it. -/
theorem leave {point : Point}
    (hpoint : point = .read ∨ point = .error ∨ point = .dead ∨ ∃ status text, point = .turned (.refusal status text)) :
    Sound (s.goto i r point) := by
  rcases hpoint with rfl | rfl | rfl | ⟨status, text, rfl⟩ <;>
    exact h.goto hr ⟨nofun, nofun, nofun, nofun⟩ nofun

theorem store : Sound (s.store i r) := by
  unfold State.store
  split
  · next hnone => exact h.take rfl (fun d hd => by rw [hnone] at hd; cases hd) nofun
  · exact h.leave hr (.inl rfl)

theorem read : Sound (s.read statuses i r) := by
  unfold State.read
  split
  · exact h.leave hr (.inr (.inl rfl))
  · next held hc =>
    split
    · next hs =>
      refine h.goto hr ⟨nofun, fun c hp => ?_, nofun, nofun⟩ nofun
      cases hp
      exact ⟨hs, by rw [hc]; rfl⟩
    · next hs => exact h.goto hr ⟨fun _ _ _ => (h.done r.key).mpr ⟨held, hc, hs⟩, nofun, nofun, nofun⟩ nofun
    · exact h.leave hr (.inr (.inr (.inr ⟨_, _, rfl⟩)))

theorem retake {held : Call}
    (hpoint : r.point = .retake held) : Sound (s.retake statuses i r held) := by
  obtain ⟨hheld, -⟩ := h.claims r (mem_of_getElem? hr) held hpoint
  unfold State.retake
  split
  · exact h.leave hr (.inr (.inr (.inr ⟨_, _, rfl⟩)))
  · next c hc =>
    split
    · next hs =>
      refine h.take rfl (fun d hd => ?_) (by rw [hheld]; nofun)
      rw [hc] at hd
      cases hd
      exact hs
    · exact h.leave hr (.inr (.inr (.inr ⟨_, _, rfl⟩)))

omit hr

/-- **One step.** -/
theorem step {a : Action} {t : State} (ht : s.step statuses a = some t) :
    Sound t := by
  cases a with
  | tick =>
    cases ht
    exact ⟨h.alone, h.held, h.done, h.turned, h.claims, h.runs, h.saves⟩
  | arrive key =>
    cases ht
    have hold : ∀ {j : Nat} {q : Request}, (s.requests ++ [⟨key, .store⟩])[j]? = some q → q.processing →
        s.requests[j]? = some q := by
      intro j q hj hq
      rcases at_append hj with hj | ⟨-, rfl⟩
      · exact hj
      · cases hq
    exact ⟨fun j k q p hj hk hq hp => h.alone j k q p (hold hj hq) (hold hk hp) hq hp, forall_concat h.held nofun,
      h.done, forall_concat h.turned nofun, forall_concat h.claims nofun, forall_concat h.runs nofun,
      forall_concat h.saves nofun⟩
  | act j outcome =>
    obtain ⟨q, hq, ht⟩ := Option.bind_eq_some_iff.mp ht
    unfold State.act at ht
    generalize hpoint : q.point = point at ht
    cases point with
    | store =>
      cases ht
      exact h.store hq
    | read =>
      cases ht
      exact h.read hq
    | retake =>
      cases ht
      exact h.retake hq hpoint
    | run original record =>
      cases ht
      refine h.goto hq ⟨nofun, nofun, nofun, fun o d out hp => ?_⟩ fun _ => by rw [Request.processing, hpoint]
      cases hp
      exact ⟨h.runs q (mem_of_getElem? hq) original record hpoint, status_runSync record s.now outcome⟩
    | save =>
      cases ht
      exact h.save hq hpoint
    | turned | answered | error | dead => cases ht
  | die =>
    obtain ⟨q, hq, rfl⟩ := Option.map_eq_some_iff.mp ht
    exact h.leave hq (.inr (.inr (.inl rfl)))

end Sound

/-! ### The lock is not left behind -/

/-- No processing is cut off before its outcome is saved, and the outcome saved is not the one the row
was read with. -/
def saved (s : State) : Action → Bool
  | .die i => s.requests[i]?.all fun r => !r.processing
  | .act i _ =>
    match s.requests[i]?.map Request.point with
    | some (.save original record _) => record.status ≠ original.status
    | _ => true
  | _ => true

/-- A call that is `received` is being processed. -/
def Released (s : State) : Prop :=
  ∀ key c, s.calls key = some c → c.status = .received → ∃ r ∈ s.requests, r.key = key ∧ r.processing = true

namespace Released

variable {s t : State} {i : Nat} {r : Request}

variable (h : Released s)
include h

/-- A request moves and keeps its processing. -/
theorem goto (hr : s.requests[i]? = some r) {point : Point}
    (hpoint : r.processing → Request.processing { r with point := point }) :
    Released (s.goto i r point) := by
  intro key c hc hs
  obtain ⟨q, hq, hkey, hp⟩ := h key c hc hs
  obtain ⟨j, hj⟩ := mem_iff_getElem?.mp hq
  by_cases hij : j = i
  · rw [hij, hr] at hj
    cases hj
    obtain ⟨hlt, -⟩ := List.getElem?_eq_some_iff.mp hr
    exact ⟨_, List.mem_set hlt _, hkey, hpoint hp⟩
  · refine ⟨q, List.mem_iff_getElem?.mpr ⟨j, ?_⟩, hkey, hp⟩
    show (s.requests.set i _)[j]? = some q
    rw [List.getElem?_set_ne (Ne.symm hij), hj]

/-- A row is written: it is not `received`, or the request that wrote it begins its processing. -/
theorem put (hr : s.requests[i]? = some r) {c : Call} {point : Point} {succeeded : List Key}
    (hpoint : c.status = .received → Request.processing { r with point := point }) :
    Released (State.goto { s.put r.key c with succeeded := succeeded } i r point) := by
  obtain ⟨hlt, -⟩ := List.getElem?_eq_some_iff.mp hr
  intro key d hd hs
  by_cases hkey : key = r.key
  · subst hkey
    have hd : (s.put r.key c).calls r.key = some d := hd
    rw [show (s.put r.key c).calls r.key = some c from update_self ..] at hd
    cases hd
    exact ⟨_, List.mem_set hlt _, rfl, hpoint hs⟩
  · have hd : (s.put r.key c).calls key = some d := hd
    rw [show (s.put r.key c).calls key = s.calls key from update_of_ne hkey _ _] at hd
    obtain ⟨q, hq, hqk, hp⟩ := h key d hd hs
    obtain ⟨j, hj⟩ := mem_iff_getElem?.mp hq
    have hij : j ≠ i := by
      rintro rfl
      rw [hr] at hj
      cases hj
      exact hkey hqk.symm
    refine ⟨q, List.mem_iff_getElem?.mpr ⟨j, ?_⟩, hqk, hp⟩
    show (s.requests.set i _)[j]? = some q
    rw [List.getElem?_set_ne (Ne.symm hij), hj]

variable {statuses : Statuses}

theorem act (hsound : Sound s) (hr : s.requests[i]? = some r)
    {outcome : Outcome} (hok : saved s (.act i outcome)) (ht : s.act statuses i r outcome = some t) :
    Released t := by
  unfold State.act at ht
  generalize hpoint : r.point = point at ht
  have hidle : r.processing = false → ∀ {point : Point}, Released (s.goto i r point) :=
    fun hp => h.goto hr fun hp' => by rw [hp] at hp'; cases hp'
  rw [Request.processing, hpoint] at hidle
  cases point with
  | store =>
    cases ht
    unfold State.store
    split
    · exact h.put hr fun _ => rfl
    · exact hidle rfl
  | read =>
    cases ht
    unfold State.read
    split
    · exact hidle rfl
    · split <;> exact hidle rfl
  | retake =>
    cases ht
    unfold State.retake
    split
    · exact hidle rfl
    · split
      · exact h.put hr fun _ => rfl
      · exact hidle rfl
  | run =>
    cases ht
    exact h.goto hr fun _ => rfl
  | save original record outcome' =>
    cases ht
    have hmem := mem_of_getElem? hr
    obtain ⟨c, hc, -⟩ := hsound.held r hmem (by rw [Request.processing, hpoint])
    obtain ⟨-, hrec⟩ := hsound.saves r hmem original record outcome' hpoint
    have hdiff : record.status ≠ original.status := by
      simpa [saved, hr, hpoint] using hok
    unfold State.save
    rw [hc]
    refine h.put hr fun hs => absurd ?_ hrec
    unfold Call.save at hs
    rwa [if_neg hdiff] at hs
  | turned | answered | error | dead => cases ht

/-- **One step.** -/
theorem step (hsound : Sound s) {a : Action} (hok : saved s a)
    (ht : s.step statuses a = some t) : Released t := by
  cases a with
  | tick =>
    cases ht
    exact h
  | arrive =>
    cases ht
    intro key' c hc hs
    obtain ⟨q, hq, hrest⟩ := h key' c hc hs
    exact ⟨q, mem_append_left _ hq, hrest⟩
  | act =>
    obtain ⟨q, hq, ht⟩ := Option.bind_eq_some_iff.mp ht
    exact h.act hsound hq hok ht
  | die =>
    obtain ⟨q, hq, rfl⟩ := Option.map_eq_some_iff.mp ht
    refine h.goto hq fun hp => ?_
    simp [saved, hq, hp] at hok

end Released

variable {statuses : Statuses}

theorem released_of_reach {now : Nat}
    (h : Reach (State.step statuses) saved (State.initial now) s) : Sound s ∧ Released s :=
  h.invariant (I := fun s => Sound s ∧ Released s) ⟨sound_initial now, nofun⟩
    fun _ _ _ hs hok ht => ⟨hs.1.step ht, hs.2.step hs.1 hok ht⟩

/-- A processing of the delivery is in progress. -/
def State.busy (s : State) (key : Key) : Bool := s.requests.any fun r => r.key = key && r.processing

variable {key : Key}

theorem busy_iff :
    s.busy key ↔ ∃ r ∈ s.requests, r.key = key ∧ r.processing := by
  unfold State.busy
  rw [any_eq_true]
  simp only [Bool.and_eq_true, decide_eq_true_eq]

/-- The row of a delivery that nobody processes and that was not processed. -/
theorem Released.open (h : Released s) (hsound : Sound s) (hbusy : s.busy key = false)
    (hnot : key ∉ s.succeeded) : ∀ c, s.calls key = some c → c.status = .failed := by
  intro c hc
  cases hs : c.status with
  | received =>
    rw [busy_iff.mpr (h key c hc hs)] at hbusy
    cases hbusy
  | processed => exact absurd ((hsound.done key).mpr ⟨c, hc, hs⟩) hnot
  | failed => rfl

/-- A copy that arrives and performs its operations comes to process the call. -/
def State.processes (statuses : Statuses) (s : State) (key : Key) (outcome : Outcome) : Prop :=
  ∃ k, (Run.follow (State.step statuses) (fun _ _ => true) s
    (.arrive key :: List.replicate k (.act s.requests.length outcome))).any
      (fun t => t.requests[s.requests.length]?.any Request.processing) = true

/-- A copy that finds the row open is processed: it inserts the row, or reads it and claims it. -/
theorem processes_of_open (outcome : Outcome)
    (hopen : ∀ c, s.calls key = some c → c.status = .failed) : s.processes statuses key outcome := by
  cases hc : s.calls key with
  | none =>
    refine ⟨1, ?_⟩
    simp [Run.follow, State.step, State.act, State.store, State.goto, State.put, hc, Request.processing]
  | some c =>
    have hs := hopen c hc
    refine ⟨3, ?_⟩
    simp [Run.follow, replicate, State.step, State.act, State.store, State.read, State.retake, State.goto,
      State.put, hc, hs, Request.processing]

/-- A copy is turned away only while the delivery is being processed, or after it was. -/
theorem busy_of_turned {s t : State} (h : Released s) (hsound : Sound s) {i : Nat} {r : Request}
    {outcome : Outcome} {answer : Answer} (hr : s.requests[i]? = some r)
    (ht : s.step statuses (.act i outcome) = some t) (hturned : (t.requests[i]?.map Request.point) = some (.turned answer)) :
    s.busy r.key ∨ r.key ∈ s.succeeded := by
  by_contra hcon
  rw [not_or, Bool.not_eq_true] at hcon
  have hopen := h.open hsound hcon.1 hcon.2
  obtain ⟨q, hq, ht⟩ := Option.bind_eq_some_iff.mp ht
  rw [hr] at hq
  cases hq
  obtain ⟨hlt, -⟩ := List.getElem?_eq_some_iff.mp hr
  have hgoto : ∀ {u : State} {point : Point}, (u.goto i r point).requests[i]?.map Request.point = some (.turned answer) →
      u.requests = s.requests → point = .turned answer := by
    intro u point hp hu
    simp only [State.goto, hu, List.getElem?_set_self hlt, Option.map_some, Option.some.injEq] at hp
    exact hp
  unfold State.act at ht
  generalize hpoint : r.point = point at ht
  cases point with
  | store =>
    cases ht
    unfold State.store at hturned
    split at hturned
    · cases hgoto hturned rfl
    · cases hgoto hturned rfl
  | read =>
    cases ht
    unfold State.read at hturned
    split at hturned
    · cases hgoto hturned rfl
    · next held hheld =>
      simp only [hopen held hheld] at hturned
      cases hgoto hturned rfl
  | retake held =>
    cases ht
    obtain ⟨c, hc⟩ := Option.isSome_iff_exists.mp (hsound.claims r (mem_of_getElem? hr) held hpoint).2
    unfold State.retake at hturned
    simp only [hc, hopen c hc, if_true] at hturned
    cases hgoto hturned rfl
  | run =>
    cases ht
    cases hgoto hturned rfl
  | save =>
    cases ht
    unfold State.save at hturned
    split at hturned
    · cases hgoto hturned rfl
    · cases hgoto hturned rfl
  | turned | answered | error | dead => cases ht

/-- **Processed once, and not lost.**  In a run in which every outcome is saved, for every delivery: one
processing of it at most is in progress; none is once one was saved as processed; a copy is answered 200
without being processed only when one was; and while none is in progress and none was saved as processed,
a copy that arrives is processed, and no copy is turned away. -/
theorem processed_once_and_not_lost {statuses : Statuses} {now : Nat} {s : State}
    (h : Reach (State.step statuses) saved (State.initial now) s) (key : Key) :
    (∀ (i j : Nat) (r q : Request), s.requests[i]? = some r → s.requests[j]? = some q → r.key = key → q.key = key →
      r.processing = true → q.processing = true → i = j) ∧
    (key ∈ s.succeeded → s.busy key = false) ∧
    (∀ r ∈ s.requests, ∀ kind body, r.key = key → r.point = .turned (.written 200 kind body) → key ∈ s.succeeded) ∧
    (s.busy key = false → key ∉ s.succeeded → (∀ outcome, s.processes statuses key outcome) ∧
      ∀ (i : Nat) (r : Request) (outcome : Outcome) (answer : Answer) (t : State), s.requests[i]? = some r →
        r.key = key → s.step statuses (.act i outcome) = some t →
        t.requests[i]?.map Request.point ≠ some (.turned answer)) := by
  obtain ⟨hsound, hreleased⟩ := released_of_reach h
  refine ⟨fun i j r q hi hj hr hq hrp hqp => hsound.alone i j r q hi hj hrp hqp (hr.trans hq.symm),
    fun hin => ?_, fun r hr kind body hkey hp => hkey ▸ hsound.turned r hr kind body hp, fun hbusy hnot => ?_⟩
  · rw [← Bool.not_eq_true, busy_iff]
    rintro ⟨r, hr, hkey, hp⟩
    obtain ⟨c, hc, hs⟩ := hsound.held r hr hp
    obtain ⟨d, hd, hds⟩ := (hsound.done key).mp hin
    rw [← hkey, hc] at hd
    cases hd
    rw [hs] at hds
    cases hds
  · refine ⟨fun outcome => processes_of_open outcome (hreleased.open hsound hbusy hnot),
      fun i r outcome answer t hr hkey ht hturned => ?_⟩
    rcases busy_of_turned hreleased hsound hr ht hturned with hb | hin
    · rw [hkey, hbusy] at hb
      cases hb
    · exact hnot (hkey ▸ hin)

def someKey : Key := ⟨"k", by decide⟩

/-- Done with a status of 200. -/
def accepted : Outcome := .result ⟨200, "", none⟩

/-- A first copy fails; a second one claims the row and is processed; a third is answered 200. -/
theorem processed_once_and_not_lost_in_turn :
    ∃ s : State, s.requests.length = 3 ∧ someKey ∈ s.succeeded ∧ s.busy someKey = false := by
  obtain ⟨s, hrun, hlen, hin⟩ : ∃ s, Reach (State.step ⟨503, 500⟩) saved (State.initial 0) s ∧
      s.requests.length = 3 ∧ someKey ∈ s.succeeded :=
    Run.exists_reach [.arrive someKey, .act 0 .failure, .act 0 .failure, .act 0 .failure, .arrive someKey,
      .act 1 accepted, .act 1 accepted, .act 1 accepted, .act 1 accepted, .act 1 accepted, .arrive someKey, .act 2 accepted,
      .act 2 accepted] (by decide +kernel)
  exact ⟨s, hlen, hin, (processed_once_and_not_lost hrun someKey).2.1 hin⟩

/-- Nothing is in progress, nothing was saved as processed, and a copy that has arrived was told to come
back. -/
def State.lost (s : State) (i : Nat) : Bool :=
  s.requests[i]?.any fun r => !s.busy r.key && r.key ∉ s.succeeded &&
    r.point = .turned (State.unavailable ⟨503, 500⟩)

/-- **A delivery that is lost.**  The process of the first copy is cut off while it processes the call.
And the first copy fails, the second claims the row and fails too: its outcome is not saved, since `failed`
is what it had read.  In both cases the next copy is told that the delivery is being processed. -/
theorem delivery_is_lost :
    (Run.follow (State.step ⟨503, 500⟩) (fun _ _ => true) (State.initial 0)
      [.arrive someKey, .act 0 accepted, .die 0, .arrive someKey, .act 1 accepted, .act 1 accepted]).any
        (fun s => s.lost 1) = true ∧
    (Run.follow (State.step ⟨503, 500⟩) (fun _ _ => true) (State.initial 0)
      [.arrive someKey, .act 0 .failure, .act 0 .failure, .act 0 .failure, .arrive someKey, .act 1 .failure, .act 1 .failure,
        .act 1 .failure, .act 1 .failure, .act 1 .failure, .arrive someKey, .act 2 accepted, .act 2 accepted]).any
        (fun s => s.lost 2) = true := by
  constructor
  · decide +kernel
  · decide +kernel

end Hesape.Webhook.Client
