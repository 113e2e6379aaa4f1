import Hesape.Webhook.Delivery
import Mathlib.Data.List.Nodup

/-!
# One attempt at a time

Three fences keep the attempts of a delivery apart: the claim compares the status, the count and the
lease; the settlement compares the token; `Redeliver` compares the status and the count it read.  A
token is on the row of one delivery at most, from the claim until somebody takes it off, and the row's
count is then the attempt's number (`Holder`).  So whatever the interleaving an attempt is recorded once
and the plan is kept to (`Sound`).

Exclusion needs more.  A worker can be held up between its claim and its request until its lease is over
and another has taken over; and a redelivery that read an abandoned attempt finds status and count
unchanged when another worker has taken that attempt over.  `inTime` is the condition that a request is
sent within its lease and that a redelivery finds no lease running.  Under it the lease of an attempt
that is not over stands on the row (`Leased`), and there is one row.
-/

namespace Hesape.Webhook

open Hesape.Run (Reach at_set at_append forall_set forall_concat)
open List
open Function
open Option

/-- The token and the lease a worker has claimed with. -/
def Point.hold : Point → Option (Nat × Nat)
  | .reread _ token lease => some (token, lease)
  | .giveBack _ token lease => some (token, lease)
  | .send t => some (t.token, t.lease)
  | .sent t _ => some (t.token, t.lease)
  | .settle t _ _ => some (t.token, t.lease)
  | _ => none

/-- The attempt a worker is making. -/
def Point.take : Point → Option Take
  | .send t => some t
  | .sent t _ => some t
  | .settle t _ _ => some t
  | _ => none

/-! ### What holds of a row, whatever the interleaving -/

/-- A row: it carries a token while it is processing, its history has each number once and none beyond
its count, and without a redelivery it keeps to its plan. -/
structure Row (minted : Nat) (d : Delivery) : Prop where
  token : ∀ τ, d.claimToken = some τ → d.status = .processing ∧ τ < minted
  past : ∀ a ∈ d.history, a.attempt ≤ d.attempts
  current : d.status = .processing → ∀ a ∈ d.history, a.attempt < d.attempts
  once : (d.history.map DeliveryAttempt.attempt).Nodup
  plan : d.redelivered = false → d.attempts ≤ d.maxAttempts ∧ (d.status = .pending → d.attempts < d.maxAttempts)
    ∧ ∀ a ∈ d.history, a.attempt ≤ d.maxAttempts

namespace Row

variable {minted : Nat} {d : Delivery}

theorem mono (h : Row minted d) {m : Nat} (hm : minted ≤ m) : Row m d :=
  ⟨fun τ hτ => ⟨(h.token τ hτ).1, Nat.lt_of_lt_of_le (h.token τ hτ).2 hm⟩, h.past, h.current, h.once, h.plan⟩

theorem inserted (s : State) (minted : Nat) (endpoint : Option Nat) {tries : Nat} (ht : tries ≠ 0) (waits : List Nat) :
    Row minted (s.inserted endpoint tries waits) where
  token := nofun
  past := nofun
  current := nofun
  once := nodup_nil
  plan := fun _ => ⟨Nat.zero_le _, fun _ => Nat.pos_of_ne_zero ht, nofun⟩

variable {job : Job}

/-- What a claim finds: the row waits at the job's count, or its attempt after it was abandoned. -/
theorem of_claimable {now : Nat} (hc : d.claimable job now) :
    (d.status = .pending ∧ d.attempts = job.attempts) ∨
      (d.status = .processing ∧ d.attempts = job.attempts + 1 ∧ ∃ x, d.leaseUntil = some x ∧ x ≤ now) := by
  simp only [Delivery.claimable, Bool.or_eq_true, Bool.and_eq_true, decide_eq_true_eq, Option.any_eq_true] at hc
  rcases hc with ⟨⟨hs, ha⟩, -⟩ | ⟨⟨hs, ha⟩, x, hx, hle⟩
  · exact .inl ⟨hs, ha⟩
  · exact .inr ⟨hs, ha, x, hx, hle⟩

variable (h : Row minted d)
include h

theorem claim {now : Nat} (hc : d.claimable job now) (lease : Nat) :
    Row (minted + 1) (d.claim job minted lease) := by
  have hpast : ∀ a ∈ d.history, a.attempt < job.attempts + 1 := by
    intro a ha
    rcases of_claimable hc with ⟨-, hat⟩ | ⟨hs, hat, -⟩
    · have := h.past a ha
      omega
    · have := h.current hs a ha
      omega
  refine ⟨fun τ hτ => ⟨rfl, ?_⟩, fun a ha => Nat.le_of_lt (hpast a ha), fun _ => hpast, h.once, fun hr => ?_⟩
  · cases hτ
    exact Nat.lt_succ_self _
  · obtain ⟨_, hpending, hhist⟩ := h.plan hr
    refine ⟨?_, nofun, hhist⟩
    show job.attempts + 1 ≤ d.maxAttempts
    rcases of_claimable hc with ⟨hs, hat⟩ | ⟨-, hat, -⟩
    · have := hpending hs
      omega
    · omega

theorem giveBack (hs : d.status = .processing) (hat : d.attempts = job.attempts + 1) :
    Row minted (d.giveBack job) := by
  have hpast : ∀ a ∈ d.history, a.attempt ≤ job.attempts := by
    intro a ha
    have := h.current hs a ha
    omega
  refine ⟨nofun, hpast, nofun, h.once, fun hr => ?_⟩
  obtain ⟨_, -, hhist⟩ := h.plan hr
  refine ⟨?_, fun _ => ?_, hhist⟩
  · show job.attempts ≤ d.maxAttempts
    omega
  · show job.attempts < d.maxAttempts
    omega

theorem settled {t : Take} (hs : d.status = .processing) (hat : d.attempts = t.n)
    (hmax : d.redelivered = false → t.copy.maxAttempts = d.maxAttempts) (r : Result) (now : Nat) :
    Row minted (t.settled r now d) := by
  have hlt : ∀ a ∈ d.history, a.attempt < t.n := fun a ha => hat ▸ h.current hs a ha
  have hpast : ∀ a ∈ d.history ++ [(⟨t.n, t.trigger, r.delivered⟩ : DeliveryAttempt)], a.attempt ≤ t.n := by
    intro a ha
    rcases (mem_append.mp ha).imp_right mem_singleton.mp with ha | rfl
    · exact Nat.le_of_lt (hlt a ha)
    · rfl
  have hstatus : t.status r now ≠ .processing := by
    unfold Take.status
    split
    · exact nofun
    · split <;> exact nofun
  refine ⟨nofun, fun a ha => ?_, fun hp => absurd hp hstatus, ?_, fun hr => ?_⟩
  · show a.attempt ≤ d.attempts
    rw [hat]
    exact hpast a ha
  · show ((d.history ++ _).map _).Nodup
    rw [map_append]
    refine List.Nodup.append h.once (nodup_singleton _) fun n hn hn' => ?_
    obtain ⟨a, ha, rfl⟩ := mem_map.mp hn
    have := hlt a ha
    rw [map_singleton, mem_singleton] at hn'
    have hn' : a.attempt = t.n := hn'
    omega
  · obtain ⟨hle, -⟩ := h.plan hr
    refine ⟨hle, fun hp => ?_, fun a ha => ?_⟩
    · -- Another attempt is planned only below the copy's limit, which is the row's.
      have hp : t.status r now = .pending := hp
      unfold Take.status at hp
      split at hp
      · cases hp
      · split at hp
        · next hnext =>
          unfold Take.next at hnext
          split at hnext
          · cases hnext
          · split at hnext
            · next hleft =>
              rw [Bool.and_eq_true, decide_eq_true_eq, hmax hr] at hleft
              show d.attempts < d.maxAttempts
              rw [hat]
              exact hleft.2
            · cases hnext
        · cases hp
    · have := hpast a ha
      show a.attempt ≤ d.maxAttempts
      omega

theorem redeliver (copy : Delivery) (now : Nat) : Row minted (d.redeliver copy now) :=
  ⟨nofun, h.past, nofun, h.once, nofun⟩

end Row

/-! ### Who holds what -/

/-- A worker that has claimed: while its token is on the row, the row's count is its attempt's number. -/
def Holder (minted : Nat) (ds : Nat → Option Delivery) (w : Worker) : Prop :=
  ∀ τ lease, w.point.hold = some (τ, lease) → τ < minted ∧ ∃ d, ds w.job.delivery = some d ∧
    (d.claimToken = some τ → d.attempts = w.job.attempts + 1) ∧
    ∀ t, w.point.take = some t →
      t.n = w.job.attempts + 1 ∧ (d.redelivered = false → t.copy.maxAttempts = d.maxAttempts)

theorem holder_of_none {minted : Nat} {ds : Nat → Option Delivery} {w : Worker} (h : w.point.hold = none) :
    Holder minted ds w := by
  intro τ _ hh
  rw [h] at hh
  cases hh

/-- What holds in every run. -/
structure Sound (minted : Nat) (ds : Nat → Option Delivery) (ws : List Worker) : Prop where
  rows : ∀ id d, ds id = some d → Row minted d
  holders : ∀ w ∈ ws, Holder minted ds w
  apart : ∀ (i j : Nat) (w v : Worker) (τ l l' : Nat), ws[i]? = some w → ws[j]? = some v →
    w.point.hold = some (τ, l) → v.point.hold = some (τ, l') → i = j

namespace Sound

variable {minted : Nat} {ds : Nat → Option Delivery} {ws : List Worker}

variable (h : Sound minted ds ws)
include h

/-- A worker goes on with the claim it has, or without one. -/
theorem goto {i : Nat} {w : Worker} (hw : ws[i]? = some w) {point : Point}
    (hhold : point.hold = none ∨ point.hold = w.point.hold) (hholder : Holder minted ds { w with point := point }) :
    Sound minted ds (ws.set i { w with point := point }) := by
  have hold : ∀ {j : Nat} {v : Worker} {τ l : Nat}, (ws.set i { w with point := point })[j]? = some v →
      v.point.hold = some (τ, l) → ∃ u, ws[j]? = some u ∧ u.point.hold = some (τ, l) := by
    intro j v τ l hj hv
    rcases at_set hj with ⟨rfl, rfl⟩ | ⟨-, hj⟩
    · rcases hhold with hnone | hsame
      · rw [hnone] at hv
        cases hv
      · exact ⟨w, hw, hsame ▸ hv⟩
    · exact ⟨v, hj, hv⟩
  refine ⟨h.rows, forall_set h.holders hholder, fun j k v u τ l l' hj hk hv hu => ?_⟩
  obtain ⟨v', hj', hv'⟩ := hold hj hv
  obtain ⟨u', hk', hu'⟩ := hold hk hu
  exact h.apart j k v' u' τ l l' hj' hk' hv' hu'

theorem leave {i : Nat} {w : Worker} (hw : ws[i]? = some w) {point : Point}
    (hhold : point.hold = none) : Sound minted ds (ws.set i { w with point := point }) :=
  h.goto hw (.inl hhold) (holder_of_none hhold)

theorem begin (job : Job) : Sound minted ds (ws ++ [⟨job, .read⟩]) := by
  refine ⟨h.rows, forall_concat h.holders (holder_of_none rfl), fun i j v u τ l l' hi hj hv hu => ?_⟩
  rcases at_append hi with hi | ⟨rfl, rfl⟩
  · rcases at_append hj with hj | ⟨rfl, rfl⟩
    · exact h.apart i j v u τ l l' hi hj hv hu
    · cases hu
  · cases hv

/-- A row is written.  The token on it is none or a new one, and its limit is the old one's unless it was
redelivered. -/
theorem put {id : Nat} {d' : Delivery} {m : Nat} (hm : minted ≤ m) (hrow : Row m d')
    (htoken : ∀ τ, d'.claimToken = some τ → minted ≤ τ)
    (hmax : ∀ d, ds id = some d → d'.redelivered = false → d.redelivered = false ∧ d.maxAttempts = d'.maxAttempts) :
    Sound m (update ds id (some d')) ws := by
  refine ⟨fun other d hd => ?_, fun w hw τ l hh => ?_, h.apart⟩
  · by_cases hid : other = id
    · subst hid
      rw [update_self] at hd
      cases hd
      exact hrow
    · rw [update_of_ne hid] at hd
      exact (h.rows other d hd).mono hm
  · obtain ⟨hlt, d, hd, hcount, htake⟩ := h.holders w hw τ l hh
    refine ⟨Nat.lt_of_lt_of_le hlt hm, ?_⟩
    by_cases hid : w.job.delivery = id
    · rw [hid] at hd ⊢
      refine ⟨d', update_self .., fun hτ => ?_, fun t ht => ⟨(htake t ht).1, fun hr => ?_⟩⟩
      · have := htoken τ hτ
        omega
      · obtain ⟨hr', hmax'⟩ := hmax d hd hr
        exact ((htake t ht).2 hr').trans hmax'
    · exact ⟨d, by rwa [update_of_ne hid], hcount, htake⟩

end Sound

/-- What holds of the whole state. -/
abbrev State.Sound (s : State) : Prop := Webhook.Sound s.minted s.deliveries s.workers

theorem sound_initial (now : Nat) (endpoints : Nat → Endpoint) : (State.initial now endpoints).Sound where
  rows := nofun
  holders := fun _ hw => by cases hw
  apart := by simp [State.initial]

section Steps

variable {policy : Policy} {s t : State} {i : Nat} {w : Worker} {d : Delivery}

variable {endpoint : Option (Nat × Endpoint)}

/-- The claiming update. -/
theorem sound_claimed (h : s.Sound) {now lease : Nat}
    (hd : s.deliveries w.job.delivery = some d) (hc : d.claimable w.job now) :
    (s.claimed i w endpoint lease d).Sound := by
  have hput : Webhook.Sound (s.minted + 1)
      (update s.deliveries w.job.delivery (some (d.claim w.job s.minted lease))) s.workers := by
    refine h.put (Nat.le_succ _) ((h.rows _ d hd).claim hc lease) (fun τ hτ => ?_) (fun d' hd' hr => ?_)
    · cases hτ
      exact Nat.le_refl _
    · rw [hd] at hd'
      cases hd'
      exact ⟨hr, rfl⟩
  have hold : ∀ {j : Nat} {v : Worker} {τ l : Nat}, s.workers[j]? = some v → v.point.hold = some (τ, l) →
      τ < s.minted := fun hj hv => (h.holders _ (mem_of_getElem? hj) _ _ hv).1
  refine ⟨hput.rows, forall_set hput.holders fun τ l hh => ?_, fun j k v u τ l l' hj hk hv hu => ?_⟩
  · cases hh
    refine ⟨Nat.lt_succ_self _, d.claim w.job s.minted lease, update_self .., fun _ => rfl, ?_⟩
    intro t ht
    cases ht
  · -- The token is a new one.
    rcases at_set hj with ⟨hji, hv'⟩ | ⟨hji, hj'⟩ <;> rcases at_set hk with ⟨hki, hu'⟩ | ⟨hki, hk'⟩
    · exact hji.trans hki.symm
    · rw [hv'] at hv
      cases hv
      exact absurd (hold hk' hu) (Nat.lt_irrefl _)
    · rw [hu'] at hu
      cases hu
      exact absurd (hold hj' hv) (Nat.lt_irrefl _)
    · exact h.apart j k v u τ l l' hj' hk' hv hu

/-- A worker that goes on with the claim it has. -/
theorem sound_proceed (h : s.Sound) (hw : s.workers[i]? = some w)
    {token lease : Nat} (hpoint : w.point = .reread endpoint token lease)
    (hd : s.deliveries w.job.delivery = some d) :
    (s.goto i w (State.proceed policy w endpoint token lease d)).Sound := by
  have hsame : (State.proceed policy w endpoint token lease d).hold = w.point.hold := by
    rw [hpoint]
    unfold State.proceed
    split
    · rfl
    · split <;> rfl
  refine h.goto hw (.inr hsame) fun τ l hh => ?_
  obtain ⟨hlt, _, hd', hcount, -⟩ := h.holders w (mem_of_getElem? hw) τ l (hsame ▸ hh)
  rw [hd] at hd'
  cases hd'
  refine ⟨hlt, d, hd, hcount, fun t ht => ?_⟩
  unfold State.proceed at ht
  split at ht
  · cases ht
    exact ⟨rfl, fun _ => rfl⟩
  · split at ht
    · cases ht
    · cases ht
      exact ⟨rfl, fun _ => rfl⟩

/-- A holder whose token is on the row: the row is processing its attempt. -/
theorem Sound.held (h : s.Sound) (hw : s.workers[i]? = some w) {τ l : Nat} (hhold : w.point.hold = some (τ, l)) (hd : s.deliveries w.job.delivery = some d) (hτ : d.claimToken = some τ) :
    d.status = .processing ∧ d.attempts = w.job.attempts + 1 ∧
      ∀ t, w.point.take = some t → d.attempts = t.n ∧ (d.redelivered = false → t.copy.maxAttempts = d.maxAttempts) := by
  obtain ⟨-, _, hd', hcount, htake⟩ := h.holders w (mem_of_getElem? hw) τ l hhold
  rw [hd] at hd'
  cases hd'
  exact ⟨((h.rows _ d hd).token τ hτ).1, hcount hτ,
    fun t ht => ⟨(hcount hτ).trans (htake t ht).1.symm, (htake t ht).2⟩⟩

/-- What is done on a row, or nothing when it is gone. -/
theorem onRow_cases {motive : State → Prop} {f : Delivery → State}
    (hnone : s.deliveries w.job.delivery = none → motive (s.goto i w .ended)) (hsome : ∀ d, s.deliveries w.job.delivery = some d → motive (f d)) :
    motive (s.onRow i w f) := by
  unfold State.onRow
  split
  · next hd => exact hnone hd
  · next d hd => exact hsome d hd

theorem sound_giveBack (h : s.Sound) (hw : s.workers[i]? = some w) {e token lease : Nat}
    (hpoint : w.point = .giveBack e token lease) (hd : s.deliveries w.job.delivery = some d) :
    (s.giveBackStep i w token d).Sound := by
  unfold State.giveBackStep
  split
  · next hτ =>
    obtain ⟨hs, hat, -⟩ := h.held hw (show w.point.hold = some (token, lease) by rw [hpoint]; rfl) hd hτ
    refine Sound.leave (h.put (Nat.le_refl _) ((h.rows _ d hd).giveBack hs hat) nofun fun d' hd' hr => ?_) hw rfl
    rw [hd] at hd'
    cases hd'
    exact ⟨hr, rfl⟩
  · exact h.leave hw rfl

theorem sound_settle (h : s.Sound) (hw : s.workers[i]? = some w) {take : Take} {r : Result} {now : Nat}
    (hpoint : w.point = .settle take r now) (hd : s.deliveries w.job.delivery = some d) :
    (s.settleStep i w take r now d).Sound := by
  unfold State.settleStep
  split
  · next hτ =>
    obtain ⟨hs, -, htake⟩ := h.held hw (show w.point.hold = some (take.token, take.lease) by rw [hpoint]; rfl) hd hτ
    obtain ⟨hat, hmax⟩ := htake take (by rw [hpoint]; rfl)
    refine Sound.leave (h.put (Nat.le_refl _) ((h.rows _ d hd).settled hs hat hmax r now) nofun fun d' hd' hr => ?_) hw rfl
    rw [hd] at hd'
    cases hd'
    exact ⟨hr, rfl⟩
  · exact h.leave hw rfl

/-- One operation of a worker. -/
theorem sound_work (h : s.Sound) (hw : s.workers[i]? = some w) {r : Result} (ht : s.work policy i w r = some t) :
    t.Sound := by
  have hmem := mem_of_getElem? hw
  have hleave : ∀ {point : Point}, point.hold = none → (s.goto i w point).Sound := fun hp => h.leave hw hp
  have hgone : (s.goto i w .ended).Sound := hleave rfl
  unfold State.work at ht
  generalize hpoint : w.point = point at ht
  cases point with
  | read =>
    cases ht
    exact onRow_cases (fun _ => hgone) fun d hd => hleave rfl
  | clock =>
    cases ht
    exact hleave rfl
  | claim =>
    cases ht
    refine onRow_cases (fun _ => hgone) fun d hd => ?_
    unfold State.claimStep
    split
    · next hc => exact sound_claimed h hd hc
    · exact hleave rfl
  | unclaimed =>
    cases ht
    refine onRow_cases (fun _ => hgone) fun d hd => ?_
    unfold State.unclaimedStep
    split <;> exact hleave rfl
  | reread =>
    cases ht
    exact onRow_cases (fun _ => hgone) fun d hd => sound_proceed h hw hpoint hd
  | giveBack =>
    cases ht
    exact onRow_cases (fun _ => hgone) fun d hd => sound_giveBack h hw hpoint hd
  | send | sent =>
    cases ht
    have hholder := h.holders w hmem
    unfold Holder at hholder
    rw [hpoint] at hholder
    exact h.goto hw (.inr (by rw [hpoint]; rfl)) hholder
  | settle =>
    cases ht
    exact onRow_cases (fun _ => hgone) fun d hd => sound_settle h hw hpoint hd
  | ended => cases ht

/-- A redelivery moves on, or finds the row as it read it and queues a manual attempt. -/
theorem redo_cases {x : Redelivery} (ht : s.redo i x = some t) :
    (∃ point, t = s.gotoRedo i x point) ∨
    ∃ d copy now, s.deliveries x.delivery = some d ∧ x.point = .write copy now ∧
      (d.attempts = copy.attempts ∧ d.status = copy.status) ∧
      t = ((s.put x.delivery (d.redeliver copy now)).requeue ⟨x.delivery, copy.attempts, .manual⟩).gotoRedo i x .ended := by
  unfold State.redo at ht
  generalize hd : s.deliveries x.delivery = row at ht
  generalize hpoint : x.point = point at ht
  cases row with
  | none => exact .inl ⟨_, (some.inj ht).symm⟩
  | some d =>
    cases point with
    | ended => cases ht
    | read | clock => exact .inl ⟨_, (some.inj ht).symm⟩
    | write copy now =>
      dsimp only at ht
      split at ht
      · next hsame => exact .inr ⟨d, copy, now, rfl, rfl, hsame, (some.inj ht).symm⟩
      · exact .inl ⟨_, (some.inj ht).symm⟩

/-- One operation of a redelivery. -/
theorem sound_redo (h : s.Sound) {x : Redelivery} (ht : s.redo i x = some t) : t.Sound := by
  obtain ⟨_, rfl⟩ | ⟨d, copy, now, hd, -, -, rfl⟩ := redo_cases ht
  · exact h
  · exact h.put (Nat.le_refl _) ((h.rows _ d hd).redeliver copy now) nofun nofun

/-- A change touches no delivery. -/
theorem change_frame {x : Turn} (ht : s.change i x = some t) :
    t.minted = s.minted ∧ t.deliveries = s.deliveries ∧ t.workers = s.workers ∧ t.grants = s.grants ∧ t.now = s.now := by
  unfold State.change at ht
  cases hx : x.point <;> simp only [hx] at ht <;> cases ht <;> exact ⟨rfl, rfl, rfl, rfl, rfl⟩

/-- **One step.** -/
theorem sound_step {a : Action} (h : s.Sound) (ht : s.step policy a = some t) : t.Sound := by
  cases a with
  | tick | push | redeliver | turn =>
    cases ht
    exact h
  | record _ endpoint _ waits =>
    simp only [State.step] at ht
    split at ht
    · cases ht
    · next htries =>
      split at ht
      · cases ht
        exact h
      · next hnew =>
        cases ht
        refine h.put (Nat.le_refl _) (Row.inserted s s.minted endpoint htries waits) nofun fun d hd => ?_
        rw [hd] at hnew
        exact absurd rfl hnew
  | take =>
    obtain ⟨job, -, rfl⟩ := map_eq_some_iff.mp ht
    exact h.begin job
  | work =>
    obtain ⟨v, hv, ht⟩ := bind_eq_some_iff.mp ht
    exact sound_work h hv ht
  | drop =>
    obtain ⟨v, hv, ht⟩ := bind_eq_some_iff.mp ht
    split at ht
    · cases ht
    · cases ht
      exact h.leave hv rfl
  | redo =>
    obtain ⟨x, -, ht⟩ := bind_eq_some_iff.mp ht
    exact sound_redo h ht
  | change =>
    obtain ⟨x, -, ht⟩ := bind_eq_some_iff.mp ht
    obtain ⟨hm, hd, hw, -⟩ := change_frame ht
    show Webhook.Sound t.minted t.deliveries t.workers
    rw [hm, hd, hw]
    exact h

end Steps

variable {policy : Policy} {endpoints : Nat → Endpoint} {now : Nat}

theorem sound_of_reach {ok : State → Action → Bool}
    {s : State} (h : Reach (State.step policy) ok (State.initial now endpoints) s) : s.Sound :=
  h.invariant (sound_initial now endpoints) fun _ _ _ hs _ ht => sound_step hs ht

/-! ### Leases -/

/-- A request is sent while its attempt's lease has time left, and a redelivery is written when no lease
of the delivery has. -/
def inTime (s : State) : Action → Bool
  | .work i _ =>
    match s.workers[i]?.map Worker.point with
    | some (.send t) => s.now < t.lease
    | _ => true
  | .redo i =>
    match s.redeliveries[i]? with
    | some ⟨id, .write _ _⟩ => (s.deliveries id).all fun d => d.status ≠ .processing || d.leaseUntil.all (· ≤ s.now)
    | _ => true
  | _ => true

/-- What holds in a run whose steps are in time: a worker's lease is among those granted and not over,
and such a lease stands on the row as long as it has time left. -/
structure Leased (s : State) : Prop where
  clocks : ∀ w ∈ s.workers, ∀ endpoint now, w.point = .claim endpoint now → now ≤ s.now
  minted : ∀ g ∈ s.grants, g.token < s.minted
  own : ∀ w ∈ s.workers, ∀ τ l, w.point.hold = some (τ, l) → ⟨w.job.delivery, τ, l, false⟩ ∈ s.grants
  live : ∀ g ∈ s.grants, g.ended = false → s.now < g.lease →
    ∃ d, s.deliveries g.delivery = some d ∧ d.claimToken = some g.token ∧ d.leaseUntil = some g.lease

theorem leased_initial (now : Nat) (endpoints : Nat → Endpoint) : Leased (State.initial now endpoints) where
  clocks := fun _ hw => by cases hw
  minted := nofun
  own := fun _ hw => by cases hw
  live := nofun

namespace Leased

variable {s : State} {i : Nat} {w : Worker}

variable (h : Leased s)
include h

theorem tick (d : Nat) : Leased { s with now := s.now + d } := by
  refine ⟨fun w hw e now hp => Nat.le_add_right_of_le (h.clocks w hw e now hp), h.minted, h.own,
    fun g hg hover hlive => h.live g hg hover ?_⟩
  have hlive : s.now + d < g.lease := hlive
  omega

/-- A worker goes on with the claim it has, or without one. -/
theorem goto (hw : w ∈ s.workers) {point : Point} (hhold : point.hold = none ∨ point.hold = w.point.hold)
    (hclock : ∀ endpoint now, point = .claim endpoint now → now ≤ s.now) : Leased (s.goto i w point) := by
  refine ⟨forall_set h.clocks hclock, h.minted, forall_set h.own fun τ l hh => ?_, h.live⟩
  rcases hhold with hnone | hsame
  · have hh : point.hold = some (τ, l) := hh
    rw [hnone] at hh
    cases hh
  · exact h.own w hw τ l (hsame ▸ hh)

theorem leave (hw : w ∈ s.workers) {point : Point} (hhold : point.hold = none)
    (hclock : ∀ endpoint now, point = .claim endpoint now → now ≤ s.now) : Leased (s.goto i w point) :=
  h.goto hw (.inl hhold) hclock

variable {d : Delivery}

/-- A lease that stands on the row of a delivery: the delivery is processing. -/
theorem standing (hsound : s.Sound) {g : Grant} (hg : g ∈ s.grants) (hover : g.ended = false)
    (hlive : s.now < g.lease) (hd : s.deliveries g.delivery = some d) :
    d.claimToken = some g.token ∧ d.leaseUntil = some g.lease ∧ d.status = .processing := by
  obtain ⟨_, hd', htoken, hlease⟩ := h.live g hg hover hlive
  rw [hd] at hd'
  cases hd'
  exact ⟨htoken, hlease, ((hsound.rows _ d hd).token _ htoken).1⟩

/-- A row is written on which no lease stands that has time left and is not over. -/
theorem put {id : Nat}
    (hnone : ∀ g ∈ s.grants, g.delivery = id → g.ended = false → s.now < g.lease → False) : Leased (s.put id d) := by
  refine ⟨h.clocks, h.minted, h.own, fun g hg hover hlive => ?_⟩
  obtain ⟨d', _, hrest⟩ := h.live g hg hover hlive
  by_cases hid : g.delivery = id
  · exact (hnone g hg hid hover hlive).elim
  · exact ⟨d', by show update s.deliveries id _ _ = _; rwa [update_of_ne hid], hrest⟩

/-- The claiming update. -/
theorem claimed (hsound : s.Sound) (hw : w ∈ s.workers) {endpoint : Option (Nat × Endpoint)}
    {now lease : Nat} (hpoint : w.point = .claim endpoint now)
    (hd : s.deliveries w.job.delivery = some d) (hc : d.claimable w.job now) :
    Leased (s.claimed i w endpoint lease d) := by
  have hnow := h.clocks w hw endpoint now hpoint
  -- A standing lease would be past by the clock the claim compared with.
  have hnone : ∀ g ∈ s.grants, g.delivery = w.job.delivery → g.ended = false → s.now < g.lease → False := by
    intro g hg hid hover hlive
    obtain ⟨-, hlease, hstatus⟩ := h.standing hsound hg hover hlive (hid ▸ hd)
    rcases Row.of_claimable hc with ⟨hs, -⟩ | ⟨-, -, x, hx, _⟩
    · rw [hs] at hstatus
      cases hstatus
    · rw [hlease] at hx
      cases hx
      omega
  have hput := h.put (d := d.claim w.job s.minted lease) hnone
  refine ⟨forall_set h.clocks nofun,
    forall_concat (fun g hg => Nat.lt_succ_of_lt (h.minted g hg)) (Nat.lt_succ_self _),
    forall_set (fun v hv τ l hh => mem_append_left _ (h.own v hv τ l hh)) fun τ l hh => ?_,
    forall_concat hput.live fun _ _ => ⟨_, update_self .., rfl, rfl⟩⟩
  cases hh
  exact mem_append_right _ mem_cons_self

/-- An attempt is over.  Nobody else holds its token. -/
theorem close {token : Nat}
    (hothers : ∀ w ∈ s.workers, ∀ l, w.point.hold ≠ some (token, l)) : Leased (s.close token) := by
  have hmap : ∀ g ∈ (s.close token).grants, g.ended = false → g ∈ s.grants ∧ g.token ≠ token := by
    intro g hg hover
    obtain ⟨g', hg', rfl⟩ := mem_map.mp hg
    split at hover
    · cases hover
    · next hne =>
      rw [if_neg hne]
      exact ⟨hg', hne⟩
  refine ⟨h.clocks, fun g hg => ?_, fun w hw τ l hh => ?_, fun g hg hover hlive => h.live g (hmap g hg hover).1 hover hlive⟩
  · obtain ⟨g', hg', rfl⟩ := mem_map.mp hg
    split
    · exact h.minted g' hg'
    · exact h.minted g' hg'
  · have hne : τ ≠ token := by
      rintro rfl
      exact hothers w hw l hh
    refine mem_map.mpr ⟨_, h.own w hw τ l hh, ?_⟩
    exact if_neg hne

variable (hsound : s.Sound) (hw : s.workers[i]? = some w)
include hsound hw

/-- A worker is done with its token. -/
theorem finish {τ l : Nat}
    (hhold : w.point.hold = some (τ, l)) : Leased ((s.goto i w .ended).close τ) := by
  have hleave : Leased (s.goto i w .ended) := h.leave (mem_of_getElem? hw) rfl nofun
  refine hleave.close fun v hv l' hh => ?_
  obtain ⟨j, hj⟩ := mem_iff_getElem?.mp hv
  rcases at_set hj with ⟨-, rfl⟩ | ⟨hne, hj⟩
  · cases hh
  · exact hne (hsound.apart j i v w τ l' l hj hw hh hhold)

/-- The row it held is written. -/
theorem finish_put {τ l : Nat}
    (hhold : w.point.hold = some (τ, l)) (hd : s.deliveries w.job.delivery = some d)
    (hτ : d.claimToken = some τ) (d' : Delivery) :
    Leased (((s.goto i w .ended).close τ).put w.job.delivery d') := by
  have hfinish := h.finish hsound hw hhold
  refine hfinish.put fun g hg hid hover hlive => ?_
  obtain ⟨d'', hd'', htoken, -⟩ := hfinish.live g hg hover hlive
  have hd'' : s.deliveries g.delivery = some d'' := hd''
  rw [hid, hd] at hd''
  cases hd''
  rw [hτ] at htoken
  obtain ⟨_, -, rfl⟩ := mem_map.mp hg
  split at hover
  · cases hover
  · next hne =>
    rw [if_neg hne] at htoken
    exact hne (some.inj htoken).symm

variable {t : State} {policy : Policy}

/-- One operation of a worker. -/
theorem work {r : Result} (ht : s.work policy i w r = some t) : Leased t := by
  have hmem := mem_of_getElem? hw
  have hgone : Leased (s.goto i w .ended) := h.leave hmem rfl nofun
  unfold State.work at ht
  generalize hpoint : w.point = point at ht
  cases point with
  | read =>
    cases ht
    exact onRow_cases (fun _ => hgone) fun d hd => h.leave hmem rfl nofun
  | clock =>
    cases ht
    refine h.leave hmem rfl fun e now hp => ?_
    cases hp
    exact Nat.le_refl _
  | claim =>
    cases ht
    refine onRow_cases (fun _ => hgone) fun d hd => ?_
    unfold State.claimStep
    split
    · next hc => exact h.claimed hsound hmem hpoint hd hc
    · exact h.leave hmem rfl nofun
  | unclaimed =>
    cases ht
    refine onRow_cases (fun _ => hgone) fun d hd => ?_
    unfold State.unclaimedStep
    split
    · exact ⟨hgone.clocks, hgone.minted, hgone.own, hgone.live⟩
    · exact hgone
  | reread =>
    cases ht
    refine onRow_cases (fun _ => hgone) fun d hd => h.goto hmem (.inr ?_) ?_
    · rw [hpoint]
      unfold State.proceed
      split
      · rfl
      · split <;> rfl
    · unfold State.proceed
      split
      · exact nofun
      · split <;> exact nofun
  | giveBack e token lease =>
    cases ht
    have hhold : w.point.hold = some (token, lease) := by rw [hpoint]; rfl
    refine onRow_cases (fun _ => hgone) fun d hd => ?_
    unfold State.giveBackStep
    split
    · next hτ => exact h.finish_put hsound hw hhold hd hτ _
    · exact h.finish hsound hw hhold
  | send | sent =>
    cases ht
    exact h.goto hmem (.inr (by rw [hpoint]; rfl)) nofun
  | settle take r' now =>
    cases ht
    have hhold : w.point.hold = some (take.token, take.lease) := by rw [hpoint]; rfl
    refine onRow_cases (fun _ => hgone) fun d hd => ?_
    unfold State.settleStep
    split
    · next hτ =>
      have hput := h.finish_put hsound hw hhold hd hτ (take.settled r' now d)
      exact ⟨hput.clocks, hput.minted, hput.own, hput.live⟩
    · exact h.finish hsound hw hhold
  | ended => cases ht

omit hw

/-- One operation of a redelivery. -/
theorem redo {x : Redelivery} (hx : s.redeliveries[i]? = some x)
    (hok : inTime s (.redo i)) (ht : s.redo i x = some t) : Leased t := by
  obtain ⟨id, _⟩ := x
  obtain ⟨_, rfl⟩ | ⟨d, copy, now, hd, rfl, -, rfl⟩ := redo_cases ht
  · exact ⟨h.clocks, h.minted, h.own, h.live⟩
  · simp only [inTime, hx] at hok
    rw [hd, all_some, Bool.or_eq_true, decide_eq_true_eq] at hok
    -- A lease that stands would have time left.
    have hput : Leased (s.put id (d.redeliver copy now)) := h.put fun g hg hid hover hlive => by
      obtain ⟨-, hlease, hstatus⟩ := h.standing hsound hg hover hlive (hid ▸ hd)
      rw [hlease, all_some, decide_eq_true_eq] at hok
      rcases hok with hne | _
      · exact hne hstatus
      · omega
    exact ⟨hput.clocks, hput.minted, hput.own, hput.live⟩

theorem step {a : Action} (hok : inTime s a)
    (ht : s.step policy a = some t) : Leased t := by
  cases a with
  | tick d =>
    cases ht
    exact h.tick d
  | record id endpoint tries waits =>
    simp only [State.step] at ht
    split at ht
    · cases ht
    · split at ht
      · cases ht
        exact h
      · next hnew =>
        cases ht
        have hput : Leased (s.put id (s.inserted endpoint tries waits)) := h.put fun g hg hid hover hlive => by
          obtain ⟨d, hd, -⟩ := h.live g hg hover hlive
          rw [← hid, hd] at hnew
          exact absurd rfl hnew
        exact ⟨hput.clocks, hput.minted, hput.own, hput.live⟩
  | push | redeliver | turn =>
    cases ht
    exact ⟨h.clocks, h.minted, h.own, h.live⟩
  | take =>
    obtain ⟨_, -, rfl⟩ := map_eq_some_iff.mp ht
    exact ⟨forall_concat h.clocks nofun, h.minted, forall_concat h.own nofun, h.live⟩
  | work =>
    obtain ⟨v, hv, ht⟩ := bind_eq_some_iff.mp ht
    exact h.work hsound hv ht
  | drop j =>
    obtain ⟨v, hv, ht⟩ := bind_eq_some_iff.mp ht
    split at ht
    · cases ht
    · cases ht
      have hleave : Leased (s.goto j v .ended) := h.leave (mem_of_getElem? hv) rfl nofun
      exact ⟨hleave.clocks, hleave.minted, hleave.own, hleave.live⟩
  | redo =>
    obtain ⟨x, hx, ht⟩ := bind_eq_some_iff.mp ht
    exact h.redo hsound hx hok ht
  | change =>
    obtain ⟨x, -, ht⟩ := bind_eq_some_iff.mp ht
    obtain ⟨hm, hd, hw, hg, hn⟩ := change_frame ht
    refine ⟨?_, ?_, ?_, ?_⟩
    · rw [hw, hn]
      exact h.clocks
    · rw [hg, hm]
      exact h.minted
    · rw [hw, hg]
      exact h.own
    · rw [hg, hn, hd]
      exact h.live

end Leased

theorem leased_of_reach {s : State}
    (h : Reach (State.step policy) inTime (State.initial now endpoints) s) : s.Sound ∧ Leased s :=
  h.invariant (I := fun s => s.Sound ∧ Leased s) ⟨sound_initial now endpoints, leased_initial now endpoints⟩
    fun _ _ _ hs hok ht => ⟨sound_step hs.1 ht, hs.2.step hs.1 hok ht⟩

/-- A settlement by a worker that no longer holds the claim. -/
theorem settle_lost {s t : State} {i : Nat} {w : Worker} {take : Take} {r r' : Result}
    (hw : s.workers[i]? = some w) (hpoint : w.point = .settle take r now)
    (hlost : ∀ d, s.deliveries w.job.delivery = some d → d.claimToken ≠ some take.token)
    (ht : s.step policy (.work i r') = some t) :
    t.deliveries = s.deliveries ∧ t.queue = s.queue ∧ t.endpoints = s.endpoints := by
  obtain ⟨v, hv, ht⟩ := bind_eq_some_iff.mp ht
  rw [hw] at hv
  cases hv
  simp only [State.work, hpoint] at ht
  cases ht
  refine onRow_cases (motive := fun t => t.deliveries = s.deliveries ∧ t.queue = s.queue ∧ t.endpoints = s.endpoints)
    (fun _ => ⟨rfl, rfl, rfl⟩) fun d hd => ?_
  unfold State.settleStep
  rw [if_neg (hlost d hd)]
  exact ⟨rfl, rfl, rfl⟩

/-- **One attempt at a time, recorded once.**  In a run whose steps are in time: when a worker sends its
request, every lease of the delivery that has time left and whose attempt is not over is its own; a
settlement without the claim changes no delivery, no history, no queue and no endpoint; a history has
each number once; and without a redelivery none of its numbers exceeds the delivery's limit. -/
theorem attempts_exclude {policy : Policy} {now : Nat} {endpoints : Nat → Endpoint} {s : State}
    (h : Reach (State.step policy) inTime (State.initial now endpoints) s) :
    (∀ i w take r t, s.workers[i]? = some w → w.point = .send take → inTime s (.work i r) = true →
      s.step policy (.work i r) = some t →
      ∀ g ∈ s.grants, g.delivery = w.job.delivery → g.ended = false → s.now < g.lease → g.token = take.token) ∧
    (∀ i w take r now r' t, s.workers[i]? = some w → w.point = .settle take r now →
      (∀ d, s.deliveries w.job.delivery = some d → d.claimToken ≠ some take.token) →
      s.step policy (.work i r') = some t →
      t.deliveries = s.deliveries ∧ t.queue = s.queue ∧ t.endpoints = s.endpoints) ∧
    ∀ id d, s.deliveries id = some d → (d.history.map DeliveryAttempt.attempt).Nodup ∧
      (d.redelivered = false → ∀ a ∈ d.history, a.attempt ≤ d.maxAttempts) := by
  obtain ⟨hsound, hleased⟩ := leased_of_reach h
  refine ⟨fun i w take r t hw hpoint hok _ g hg hid hover hlive => ?_,
    fun i w take r now r' t hw hpoint hlost ht => settle_lost hw hpoint hlost ht,
    fun id d hd => ⟨(hsound.rows id d hd).once, fun hr => ((hsound.rows id d hd).plan hr).2.2⟩⟩
  have hhold : w.point.hold = some (take.token, take.lease) := by rw [hpoint]; rfl
  have hown := hleased.own w (mem_of_getElem? hw) _ _ hhold
  simp only [inTime, hw, map_some, hpoint, decide_eq_true_eq] at hok
  obtain ⟨d, hd, htoken, -⟩ := hleased.live _ hown rfl hok
  obtain ⟨htoken', -⟩ := hleased.standing hsound hg hover hlive (hid ▸ hd)
  exact some.inj (htoken'.symm.trans htoken)

/-! ### Where it fails -/

/-- Five seconds for a request. -/
def fiveSeconds : Policy := ⟨5 * 1000000000, false, 0⟩

/-- One endpoint, which is on. -/
def oneEndpoint : State := .initial 0 fun _ => ⟨true, 0, fiveSeconds⟩

/-- The end of a lease granted at the start. -/
def leaseEnd : Nat := 5 * 1000000000 + leaseHeadroom

/-- A request that a receiver refused for now. -/
def refused : Result := ⟨"http_status_503", false, 0⟩

/-- The worker is about to send while an attempt of another worker has time left on its lease. -/
def State.clash (s : State) (i : Nat) : Bool :=
  s.workers[i]?.any fun w =>
    match w.point with
    | .send t =>
      s.grants.any fun g => g.delivery = w.job.delivery && !g.ended && s.now < g.lease && g.token ≠ t.token
    | _ => false

/-- The operations of a worker: seven to the end of an attempt, four up to its request. -/
def works (i n : Nat) : List Action := .replicate n (.work i refused)

/-- Two attempts that are refused, by two workers in turn, and a third worker about to send. -/
def thirdTime : List Action :=
  .record 7 (some 0) 3 [0] .scheduled :: .take 0 :: works 0 7 ++ .take 0 :: works 1 7 ++ .take 0 :: works 2 4

theorem attempts_exclude_in_turn : ∃ (s : State) (w : Worker) (take : Take) (d : Delivery),
    s.workers[2]? = some w ∧ w.point = .send take ∧
    (∀ g ∈ s.grants, g.delivery = w.job.delivery → g.ended = false → s.now < g.lease → g.token = take.token) ∧
    s.deliveries 7 = some d ∧ d.history.length = 2 ∧ (d.history.map DeliveryAttempt.attempt).Nodup ∧
    ∀ a ∈ d.history, a.attempt ≤ d.maxAttempts := by
  obtain ⟨s, hrun, hp⟩ : ∃ s, Reach (State.step fiveSeconds) inTime oneEndpoint s ∧
      ((s.deliveries 7).any fun d => d.history.length = 2 && !d.redelivered) ∧ inTime s (.work 2 refused) = true ∧
      (s.step fiveSeconds (.work 2 refused)).isSome ∧
      s.workers[2]?.any fun w => match w.point with | .send _ => true | _ => false :=
    Run.exists_reach thirdTime (by decide +kernel)
  obtain ⟨hdelivery, hok, hstep, hworker⟩ := hp
  obtain ⟨d, hd, htwo⟩ := (any_eq_true _ _).mp hdelivery
  obtain ⟨htwo, hfirst⟩ := Bool.and_eq_true_iff.mp htwo
  obtain ⟨w, hw, hsend⟩ := (any_eq_true _ _).mp hworker
  obtain ⟨t, ht⟩ := isSome_iff_exists.mp hstep
  obtain ⟨hexclude, -, hrows⟩ := attempts_exclude hrun
  split at hsend
  · next take hpoint =>
    exact ⟨s, w, take, d, hw, hpoint, hexclude 2 w take refused t hw hpoint hok ht, hd, of_decide_eq_true htwo,
      (hrows 7 d hd).1, (hrows 7 d hd).2 ((Bool.not_eq_true' _).mp hfirst)⟩
  · cases hsend

/-- **Two attempts at once.**  A worker is held up after its claim until its lease is over and a second
one has taken over, and sends beside it.  And a redelivery that read the abandoned attempt is written
when the second worker has taken it over; its own attempt is sent beside that worker's. -/
theorem attempts_overlap :
    (Run.follow (State.step fiveSeconds) (fun _ _ => true) oneEndpoint
      [.record 7 (some 0) 3 [0] .scheduled, .push ⟨7, 0, .scheduled⟩, .take 0, .take 0, .work 0 refused, .work 0 refused,
        .work 0 refused, .work 0 refused, .tick leaseEnd, .work 1 refused, .work 1 refused, .work 1 refused]).any
        (fun s => s.clash 0) = true ∧
    (Run.follow (State.step fiveSeconds) (fun _ _ => true) oneEndpoint
      [.record 7 (some 0) 3 [0] .scheduled, .take 0, .work 0 refused, .work 0 refused, .work 0 refused, .tick leaseEnd,
        .redeliver 7, .redo 0, .redo 0, .drop 0, .take 0, .work 1 refused, .work 1 refused, .work 1 refused,
        .work 1 refused, .redo 0, .take 0, .work 2 refused, .work 2 refused, .work 2 refused, .work 2 refused]).any
        (fun s => s.clash 2) = true := by
  constructor
  · decide +kernel
  · decide +kernel

/-- **The record is right in every run**, in time or not: no claim is with two workers, and a history has
each number once, none beyond the count, which keeps to the limit without a redelivery. -/
theorem record_right {s : State} (h : Reach (State.step policy) (fun _ _ => true) (State.initial now endpoints) s) :
    (∀ (i j : Nat) w v τ l l', s.workers[i]? = some w → s.workers[j]? = some v → w.point.hold = some (τ, l) →
      v.point.hold = some (τ, l') → i = j) ∧
    ∀ id d, s.deliveries id = some d → (d.history.map DeliveryAttempt.attempt).Nodup ∧
      (∀ a ∈ d.history, a.attempt ≤ d.attempts) ∧ (d.redelivered = false → d.attempts ≤ d.maxAttempts) := by
  have hsound := sound_of_reach h
  refine ⟨hsound.apart, fun id d hd => ?_⟩
  have hrow := hsound.rows id d hd
  exact ⟨hrow.once, hrow.past, fun hr => (hrow.plan hr).1⟩

/-- A third attempt of one delivery beside the first of another. -/
theorem record_right_claimed : ∃ (s : State) (d : Delivery) (w v : Worker) (τ τ' l l' : Nat),
    s.deliveries 7 = some d ∧ d.history.length = 2 ∧ (d.history.map DeliveryAttempt.attempt).Nodup ∧
    (∀ a ∈ d.history, a.attempt ≤ d.attempts) ∧ s.workers[2]? = some w ∧ s.workers[3]? = some v ∧
    w.point.hold = some (τ, l) ∧ v.point.hold = some (τ', l') ∧ τ ≠ τ' := by
  obtain ⟨s, hs, hp⟩ : ∃ s, Reach (State.step fiveSeconds) (fun _ _ => true) oneEndpoint s ∧
      ((s.deliveries 7).any fun d => d.history.length = 2) ∧ (s.workers[2]?.any (·.point.hold.isSome)) ∧
      s.workers[3]?.any (·.point.hold.isSome) :=
    Run.exists_reach (thirdTime ++ .record 8 (some 0) 3 [0] .scheduled :: .take 0 :: works 3 4) (by decide +kernel)
  obtain ⟨hdelivery, hsecond, hthird⟩ := hp
  obtain ⟨d, hd, htwo⟩ := (any_eq_true _ _).mp hdelivery
  obtain ⟨w, hw, hhold⟩ := (any_eq_true _ _).mp hsecond
  obtain ⟨v, hv, hhold'⟩ := (any_eq_true _ _).mp hthird
  obtain ⟨⟨τ, l⟩, hτ⟩ := isSome_iff_exists.mp hhold
  obtain ⟨⟨τ', l'⟩, hτ'⟩ := isSome_iff_exists.mp hhold'
  obtain ⟨hapart, hrows⟩ := record_right hs
  refine ⟨s, d, w, v, τ, τ', l, l', hd, of_decide_eq_true htwo, (hrows 7 d hd).1, (hrows 7 d hd).2.1, hw, hv, hτ, hτ', ?_⟩
  rintro rfl
  exact absurd (hapart 2 3 w v τ l l' hw hv hτ hτ') (by decide)

end Hesape.Webhook
