import Hesape.Webhook.Attempts

/-!
# Nothing is left waiting

A row that waits to be sent, or whose attempt is being made, asks for a job that carries its count.  The
job is in the queue, or with a worker that will see to the row as it stands: one that has still to try
its claim, one that will ask for the job again, or the one that holds the claim (`Carried`).

Every operation that uses a job up leaves such a job behind but one, giving an attempt back.  Its row
waits for its endpoint to be turned on, and the transaction that turns it on queues what it finds.  It
reads the waiting rows page by page, by offset, so what counts is that a row with no job is never passed
over: it has been found, or as many waiting rows as the pages have covered lie before it (`Turn.covers`).
That number must not fall between two pages, no row may join those with no job once the first page is
read, and no worker that has seen the endpoint off may still be at work when the transaction commits.
This is the condition `quiet`; it is not met by itself, and without it a row can be left with nothing to
send it.
-/

namespace Hesape.Webhook

open Run
open List
open Function

/-! ### Jobs and the rows that ask for them -/

/-- The row asks for a job that carries the count `n`. -/
def Delivery.asks (d : Delivery) (n : Nat) : Prop :=
  (d.status = .pending ∧ d.attempts = n) ∨ (d.status = .processing ∧ d.attempts = n + 1)

/-- The worker will see to the row as it stands. -/
def Worker.tends (w : Worker) (d : Delivery) : Prop :=
  match w.point with
  | .read => True
  | .clock _ => True
  | .claim _ _ => True
  | .unclaimed now => d.unclaimed w.job now = true
  | point => ∃ τ l, point.hold = some (τ, l) ∧ d.claimToken = some τ

/-- A job with the count the row asks for is in the queue, or with a worker that will see to the row. -/
def Carried (queue : List Job) (workers : List Worker) (id : Nat) (d : Delivery) : Prop :=
  (∃ job ∈ queue, job.delivery = id ∧ d.asks job.attempts) ∨
    ∃ w ∈ workers, w.job.delivery = id ∧ d.asks w.job.attempts ∧ w.tends d

/-- A job with a count is in the queue or in a worker's hands. -/
def State.carries (s : State) (id n : Nat) : Bool :=
  s.queue.any (fun job => job.delivery = id && job.attempts = n) ||
    s.workers.any fun w => w.point ≠ .ended && w.job.delivery = id && w.job.attempts = n

variable {w : Worker}

theorem Worker.not_tends_over (hw : w.point = .ended) (d : Delivery) : ¬w.tends d := by
  unfold Worker.tends
  rw [hw]
  rintro ⟨τ, l, hhold, -⟩
  cases hhold

theorem Worker.tends_iff_of_hold {τ l : Nat} (hw : w.point.hold = some (τ, l)) (d : Delivery) :
    w.tends d ↔ d.claimToken = some τ := by
  have hall : w.tends d ↔ ∃ τ' l', w.point.hold = some (τ', l') ∧ d.claimToken = some τ' := by
    unfold Worker.tends
    cases hpoint : w.point <;> first | exact Iff.rfl | (rw [hpoint] at hw; cases hw)
  rw [hall]
  constructor
  · rintro ⟨τ', l', hhold, htoken⟩
    rw [hw] at hhold
    cases hhold
    exact htoken
  · exact fun htoken => ⟨τ, l, hw, htoken⟩

namespace Carried

variable {queue queue' : List Job} {ws : List Worker} {id : Nat} {d : Delivery}

theorem queued {job : Job} (hmem : job ∈ queue) (hid : job.delivery = id) (hasks : d.asks job.attempts) :
    Carried queue ws id d :=
  .inl ⟨job, hmem, hid, hasks⟩

variable (h : Carried queue ws id d)
include h

theorem mono (hq : ∀ job ∈ queue, job ∈ queue') : Carried queue' ws id d :=
  h.imp (fun ⟨job, hmem, hrest⟩ => ⟨job, hq job hmem, hrest⟩) fun h => h

/-- A worker moves.  If it was to see to the row, it still is, or its job is in the queue. -/
theorem goto {i : Nat} {w : Worker} (hw : ws[i]? = some w) {point : Point}
    (hq : ∀ job ∈ queue, job ∈ queue')
    (hmove : w.job.delivery = id → d.asks w.job.attempts → w.tends d →
      Worker.tends { w with point := point } d ∨ w.job ∈ queue') :
    Carried queue' (ws.set i { w with point := point }) id d := by
  rcases h with ⟨job, hmem, hid, hasks⟩ | ⟨v, hv, hid, hasks, htends⟩
  · exact .queued (hq job hmem) hid hasks
  · obtain ⟨j, hj, hget⟩ := mem_iff_getElem.mp hv
    by_cases hij : j = i
    · have hsame : v = w := by
        rw [← hij, getElem?_eq_getElem hj, hget] at hw
        exact Option.some.inj hw
      subst hsame
      rcases hmove hid hasks htends with hnew | hback
      · exact .inr ⟨{ v with point := point }, List.mem_set (hij ▸ hj) _, hid, hasks, hnew⟩
      · exact .queued hback hid hasks
    · refine .inr ⟨v, mem_iff_getElem?.mpr ⟨j, ?_⟩, hid, hasks, htends⟩
      rw [getElem?_set_ne (Ne.symm hij), getElem?_eq_getElem hj, hget]

/-- A worker that is at work on another row moves. -/
theorem other {i : Nat} {w : Worker} (hw : ws[i]? = some w) {point : Point}
    (hq : ∀ job ∈ queue, job ∈ queue') (hne : w.job.delivery ≠ id) :
    Carried queue' (ws.set i { w with point := point }) id d :=
  h.goto hw hq fun hid => absurd hid hne

/-- A job is taken from the queue by a new worker. -/
theorem take {k : Nat} {job : Job} (hk : queue[k]? = some job) :
    Carried (queue.eraseIdx k) (ws ++ [⟨job, .read⟩]) id d := by
  rcases h with ⟨other, hmem, hid, hasks⟩ | ⟨v, hv, hrest⟩
  · obtain ⟨j, hj, hget⟩ := mem_iff_getElem.mp hmem
    by_cases hjk : j = k
    · have hsame : job = other := by
        rw [← hjk, getElem?_eq_getElem hj, hget] at hk
        exact (Option.some.inj hk).symm
      subst hsame
      exact .inr ⟨_, mem_append_right _ (mem_singleton.mpr rfl), hid, hasks, trivial⟩
    · exact .queued (mem_eraseIdx_iff_getElem.mpr ⟨j, hj, hjk, hget⟩) hid hasks
  · exact .inr ⟨v, mem_append_left _ hv, hrest⟩

omit h

/-- What is carried is in the queue or in a worker's hands. -/
theorem carries {s : State} (h : Carried s.queue s.workers id d) {n : Nat} (hn : ∀ m, d.asks m → m = n) :
    s.carries id n := by
  unfold State.carries
  rw [Bool.or_eq_true, any_eq_true, any_eq_true]
  rcases h with ⟨job, hmem, hid, hasks⟩ | ⟨w, hw, hid, hasks, htends⟩
  · exact .inl ⟨job, hmem, by simp [hid, hn _ hasks]⟩
  · have hpoint : w.point ≠ .ended := fun hover => Worker.not_tends_over hover d htends
    exact .inr ⟨w, hw, by simp [hpoint, hid, hn _ hasks]⟩

end Carried

/-! ### Rows -/

/-- A row that waits or is being sent was due at a time, and a claim has its lease. -/
structure Timed (d : Delivery) : Prop where
  next : d.status = .pending ∨ d.status = .processing → d.nextAttemptAt.isSome
  lease : d.status = .processing → d.leaseUntil.isSome

namespace Timed

variable {d : Delivery} {job : Job} {now : Nat}

theorem of_claimable (h : d.claimable job now) : d.status = .pending ∨ d.status = .processing := by
  simp only [Delivery.claimable, Bool.or_eq_true, Bool.and_eq_true, decide_eq_true_eq] at h
  rcases h with ⟨⟨hs, -⟩, -⟩ | ⟨⟨hs, -⟩, -⟩
  · exact .inl hs
  · exact .inr hs

theorem claim (h : Timed d) (hc : d.claimable job now) (token lease : Nat) : Timed (d.claim job token lease) :=
  ⟨fun _ => h.next (of_claimable hc), fun _ => rfl⟩

theorem giveBack (h : Timed d) (hs : d.status = .processing) : Timed (d.giveBack job) :=
  ⟨fun _ => h.next (.inr hs), nofun⟩

theorem status_settled (t : Take) (r : Result) (now : Nat) : t.status r now ≠ .processing := by
  unfold Take.status
  split
  · nofun
  · split <;> nofun

theorem next_of_status {t : Take} {r : Result} {now : Nat} (h : t.status r now = .pending) :
    (t.next r now).isSome := by
  unfold Take.status at h
  split at h
  · cases h
  · split at h
    · next hnext => exact hnext
    · cases h

theorem settled (t : Take) (r : Result) (now : Nat) (d : Delivery) : Timed (t.settled r now d) where
  next := fun h => h.elim next_of_status fun hs => absurd hs (status_settled t r now)
  lease := fun hs => absurd hs (status_settled t r now)

/-- A claim that does not go through on a row that asks for the job: the job will be asked for again. -/
theorem unclaimed (h : Timed d) (hasks : d.asks job.attempts) (hc : ¬d.claimable job now) :
    d.unclaimed job now := by
  simp only [Delivery.claimable, Bool.or_eq_true, Bool.and_eq_true, decide_eq_true_eq, not_or, not_and] at hc
  simp only [Delivery.unclaimed, Bool.or_eq_true, Bool.and_eq_true, decide_eq_true_eq]
  rcases hasks with ⟨hs, hn⟩ | ⟨hs, hn⟩
  · obtain ⟨at_, hat⟩ := Option.isSome_iff_exists.mp (h.next (.inl hs))
    have := hc.1 ⟨hs, hn⟩
    simp only [hat, Option.any_some, decide_eq_true_eq] at this ⊢
    exact .inr ⟨⟨hs, hn⟩, by omega⟩
  · obtain ⟨at_, hat⟩ := Option.isSome_iff_exists.mp (h.lease hs)
    have := hc.2 ⟨hs, hn⟩
    simp only [hat, Option.any_some, decide_eq_true_eq] at this ⊢
    exact .inl ⟨⟨hs, hn⟩, by omega⟩

end Timed

/-! ### Pages -/

/-- The row waits for the endpoint to be on. -/
def State.waits (s : State) (e id : Nat) : Bool :=
  (s.deliveries id).any fun d => d.endpoint = some e && d.status = .pending

/-- How many waiting rows of the endpoint lie before a row. -/
def State.rank (s : State) (e id : Nat) : Nat := ((List.range id).filter (s.waits e)).length

variable {s : State} {e id : Nat}

theorem waits_iff :
    s.waits e id ↔ ∃ d, s.deliveries id = some d ∧ d.endpoint = some e ∧ d.status = .pending := by
  unfold State.waits
  rw [Option.any_eq_true]
  simp only [Bool.and_eq_true, decide_eq_true_eq]

/-- The number does not fall while no row stops waiting. -/
theorem rank_mono {s t : State} (h : ∀ other, s.waits e other → t.waits e other) :
    s.rank e id ≤ t.rank e id := by
  unfold State.rank
  rw [← countP_eq_length_filter, ← countP_eq_length_filter]
  exact countP_mono_left fun other _ => h other

/-- The waiting rows, split at one of them. -/
theorem waiting_split (hid : id < s.bound) (hw : s.waits e id) :
    ∃ before after, s.waiting e = before ++ id :: after ∧ before.length = s.rank e id := by
  obtain ⟨k, hk⟩ : ∃ k, s.bound = id + (k + 1) := ⟨s.bound - id - 1, by omega⟩
  refine ⟨(range id).filter (s.waits e), ((range k).map (id + 1 + ·)).filter (s.waits e), ?_, rfl⟩
  show (range s.bound).filter (s.waits e) = _
  rw [hk, range_add, filter_append, range_succ_eq_map, map_cons, map_map, Nat.add_zero,
    filter_cons_of_pos hw]
  have hshift : ((fun x => id + x) ∘ Nat.succ) = (id + 1 + ·) := by
    funext x
    show id + (x + 1) = id + 1 + x
    omega
  rw [hshift]

/-- **One page**: a row that the pages before have not passed is on it, or lies beyond a full page. -/
theorem page_or_beyond {e id k : Nat} {d : Delivery} (hd : s.deliveries id = some d)
    (hid : id < s.bound) (hw : s.waits e id) (hk : k * pageSize ≤ s.rank e id) :
    (id, d.attempts) ∈ s.page e k ∨ ((s.page e k).length = pageSize ∧ (k + 1) * pageSize ≤ s.rank e id) := by
  obtain ⟨before, after, hsplit, hlen⟩ := waiting_split hid hw
  have hdrop : (s.waiting e).drop (k * pageSize) = before.drop (k * pageSize) ++ id :: after := by
    rw [hsplit, drop_append_of_le_length (by omega)]
  by_cases hin : s.rank e id < (k + 1) * pageSize
  · left
    refine mem_map.mpr ⟨id, ?_, by simp [hd]⟩
    rw [hdrop, take_append, length_drop, hlen]
    obtain ⟨m, hm⟩ : ∃ m, pageSize - (s.rank e id - k * pageSize) = m + 1 :=
      ⟨pageSize - (s.rank e id - k * pageSize) - 1, by rw [Nat.add_mul] at hin; omega⟩
    rw [hm, take_succ_cons]
    exact mem_append_right _ mem_cons_self
  · right
    refine ⟨?_, by omega⟩
    unfold State.page
    rw [length_map, hdrop, length_take, length_append, length_drop, hlen]
    rw [Nat.add_mul] at hin
    omega

/-- The row is not passed over by the change: it was found, or the pages read so far end before it. -/
def Turn.covers (x : Turn) (s : State) (id : Nat) (d : Delivery) : Prop :=
  match x.point with
  | .scan _ k found => (id, d.attempts) ∈ found ∨ k * pageSize ≤ s.rank x.endpoint id
  | .commit _ found => (id, d.attempts) ∈ found
  | _ => True

/-- The change has read a page and will read more. -/
def Turn.paging (x : Turn) : Bool :=
  match x.point with
  | .scan _ k _ => 0 < k
  | _ => false

/-- The change has read a page and has not committed. -/
def Turn.reading (x : Turn) : Bool :=
  match x.point with
  | .scan _ k _ => 0 < k
  | .commit _ _ => true
  | _ => false

theorem Turn.covers_of_not_reading {x : Turn} (hx : x.reading = false) (s : State) (id : Nat) (d : Delivery) :
    x.covers s id d := by
  unfold Turn.reading at hx
  unfold Turn.covers
  cases hpoint : x.point with
  | scan _ k =>
    simp only [hpoint, decide_eq_false_iff_not] at hx
    have hk : k = 0 := by omega
    subst hk
    exact .inr (by simp)
  | commit =>
    simp only [hpoint] at hx
    cases hx
  | read | save | ended => trivial

theorem Turn.covers_mono {x : Turn} {s t : State} {id : Nat} {d : Delivery} (h : x.covers s id d)
    (hrank : x.paging → s.rank x.endpoint id ≤ t.rank x.endpoint id) : x.covers t id d := by
  unfold Turn.paging at hrank
  unfold Turn.covers at h ⊢
  cases hpoint : x.point with
  | scan _ k =>
    simp only [hpoint, decide_eq_true_eq] at hrank h ⊢
    refine h.imp (fun h => h) fun hk => ?_
    by_cases h0 : 0 < k
    · exact Nat.le_trans hk (hrank h0)
    · have hk : k = 0 := by omega
      subst hk
      simp
  | commit =>
    simp only [hpoint] at h
    exact h
  | read | save | ended => trivial

/-! ### The condition -/

/-- The endpoint a worker has seen off, as long as it may still give its delivery back for it. -/
def Worker.doomed (w : Worker) : Option Nat :=
  let seen (endpoint : Option (Nat × Endpoint)) : Option Nat :=
    endpoint.bind fun (e, copy) => if !copy.active && w.job.trigger ≠ .manual then some e else none
  match w.point with
  | .clock endpoint => seen endpoint
  | .claim endpoint _ => seen endpoint
  | .reread endpoint _ _ => seen endpoint
  | .giveBack e _ _ => some e
  | _ => none

/-- While an endpoint is being turned on: between two pages no waiting delivery of it is claimed, from
the first page to the commit none is given back, and when it commits no worker has seen it off. -/
def quiet (s : State) : Action → Bool
  | .work i _ =>
    match s.workers[i]? with
    | some ⟨job, .claim _ now⟩ =>
      (s.deliveries job.delivery).all fun d =>
        d.status ≠ .pending || !d.claimable job now || s.turns.all fun x => d.endpoint ≠ some x.endpoint || !x.paging
    | some ⟨_, .giveBack e _ _⟩ => s.turns.all fun x => x.endpoint ≠ e || !x.reading
    | _ => true
  | .change i =>
    match s.turns[i]? with
    | some ⟨e, _, .commit _ _⟩ => s.workers.all fun w => w.doomed ≠ some e
    | _ => true
  | _ => true

/-! ### What a quiet run keeps -/

/-- The row must be sent: it is being sent, or it waits and nothing holds it back. -/
def State.Owed (s : State) (d : Delivery) : Prop :=
  d.status = .processing ∨ (d.status = .pending ∧ ∀ e, d.endpoint = some e → (s.endpoints e).active = true)

structure Tended (s : State) : Prop where
  bounded : ∀ id d, s.deliveries id = some d → id < s.bound
  timed : ∀ id d, s.deliveries id = some d → Timed d
  doomed : ∀ w ∈ s.workers, ∀ e, w.doomed = some e →
    (s.endpoints e).active = false ∧ ∃ d, s.deliveries w.job.delivery = some d ∧ d.endpoint = some e
  carried : ∀ id d, s.deliveries id = some d → s.Owed d → Carried s.queue s.workers id d
  covered : ∀ x ∈ s.turns, ∀ id d, s.deliveries id = some d → d.status = .pending → d.endpoint = some x.endpoint →
    Carried s.queue s.workers id d ∨ x.covers s id d
  saves : ∀ x ∈ s.turns, ∀ copy, x.point = .save copy → x.change.turnsOn copy = false

theorem tended_initial (now : Nat) (endpoints : Nat → Endpoint) : Tended (State.initial now endpoints) where
  bounded := nofun
  timed := nofun
  doomed := fun _ hw => by cases hw
  carried := nofun
  covered := nofun
  saves := nofun

/-- A worker that moves without reading the endpoint has seen no other off. -/
theorem doomed_set {ws : List Worker} {i : Nat} (hw : ws[i]? = some w) {point : Point}
    (hpoint : Worker.doomed { w with point := point } = none ∨ Worker.doomed { w with point := point } = w.doomed) :
    ∀ v ∈ ws.set i { w with point := point }, ∀ e, v.doomed = some e → ∃ u ∈ ws, u.doomed = some e ∧ u.job = v.job := by
  intro v hv e he
  rcases mem_or_eq_of_mem_set hv with hv | rfl
  · exact ⟨v, hv, he, rfl⟩
  · rcases hpoint with hnone | hsame
    · rw [hnone] at he
      cases he
    · exact ⟨w, mem_of_getElem? hw, hsame ▸ he, rfl⟩

namespace Tended

variable {policy : Policy} {s t : State} {i : Nat} {w : Worker}

variable (h : Tended s)
include h

/-- Nothing but the queue and the workers changes. -/
theorem move (hrows : t.deliveries = s.deliveries) (hbound : t.bound = s.bound)
    (hends : t.endpoints = s.endpoints) (hturns : t.turns = s.turns)
    (hcarried : ∀ id d, s.deliveries id = some d → Carried s.queue s.workers id d → Carried t.queue t.workers id d)
    (hdoomed : ∀ v ∈ t.workers, ∀ e, v.doomed = some e →
      (s.endpoints e).active = false ∧ ∃ d, s.deliveries v.job.delivery = some d ∧ d.endpoint = some e) :
    Tended t := by
  have hrank : ∀ e id, s.rank e id ≤ t.rank e id := fun e id =>
    rank_mono fun other ho => by rwa [State.waits, hrows]
  refine ⟨?_, ?_, ?_, fun id d hd howed => ?_, fun x hx id d hd hs he => ?_, hturns ▸ h.saves⟩
  · rw [hrows, hbound]
    exact h.bounded
  · rw [hrows]
    exact h.timed
  · rw [hends, hrows]
    exact hdoomed
  · rw [hrows] at hd
    unfold State.Owed at howed
    rw [hends] at howed
    exact hcarried id d hd (h.carried id d hd howed)
  · rw [hrows] at hd
    rw [hturns] at hx
    exact (h.covered x hx id d hd hs he).imp (hcarried id d hd) fun hc => Turn.covers_mono hc fun _ => hrank _ _

variable {point : Point}

/-- A worker moves, and its job goes back to the queue or not. -/
theorem goto (hw : s.workers[i]? = some w) {queue : List Job}
    (hq : ∀ job ∈ s.queue, job ∈ queue)
    (hmove : ∀ d, s.deliveries w.job.delivery = some d → d.asks w.job.attempts → w.tends d →
      Worker.tends { w with point := point } d ∨ w.job ∈ queue)
    (hpoint : Worker.doomed { w with point := point } = none ∨ Worker.doomed { w with point := point } = w.doomed) :
    Tended (State.goto { s with queue := queue } i w point) := by
  refine h.move rfl rfl rfl rfl (fun id d hd hc => ?_) fun v hv e he => ?_
  · exact hc.goto hw hq fun hid => hmove d (hid ▸ hd)
  · obtain ⟨u, hu, hdoom, hjob⟩ := doomed_set hw hpoint v hv e he
    rw [← hjob]
    exact h.doomed u hu e hdoom

variable {id : Nat}

/-- A row is written.  Its endpoint stays, endpoints are at most turned off, and the row keeps waiting if
it did while a page is still to be read; if it begins to wait with no job, no page has been read. -/
theorem put {d' : Delivery} (hrows : t.deliveries = update s.deliveries id (some d'))
    (hbound : s.bound ≤ t.bound) (hid : id < t.bound) (htimed : Timed d')
    (hends : ∀ e, (t.endpoints e).active → (s.endpoints e).active) (hturns : t.turns = s.turns)
    (hsame : ∀ d, s.deliveries id = some d → d'.endpoint = d.endpoint)
    (hothers : ∀ other d, other ≠ id → Carried s.queue s.workers other d → Carried t.queue t.workers other d)
    (hcarried : t.Owed d' → Carried t.queue t.workers id d')
    (hstays : ∀ x ∈ s.turns, x.paging → s.waits x.endpoint id → d'.status = .pending)
    (hjoins : d'.status = .pending → Carried t.queue t.workers id d' ∨
      ∀ x ∈ s.turns, d'.endpoint = some x.endpoint → x.reading = false)
    (hdoomed : ∀ v ∈ t.workers, ∀ e, v.doomed = some e → ∃ u ∈ s.workers, u.doomed = some e ∧ u.job = v.job) :
    Tended t := by
  have hself : t.deliveries id = some d' := by rw [hrows, update_self]
  have hother : ∀ {other}, other ≠ id → t.deliveries other = s.deliveries other := fun hne => by
    rw [hrows, update_of_ne hne]
  have hoff : ∀ e, (s.endpoints e).active = false → (t.endpoints e).active = false := fun e he => by
    rw [← Bool.not_eq_true] at he ⊢
    exact fun hon => he (hends e hon)
  have hrank : ∀ x ∈ s.turns, x.paging → ∀ other, s.rank x.endpoint other ≤ t.rank x.endpoint other := by
    refine fun x hx hp other => rank_mono fun row hrow => ?_
    by_cases hne : row = id
    · subst hne
      obtain ⟨d, hd, he, -⟩ := waits_iff.mp hrow
      exact waits_iff.mpr ⟨d', hself, (hsame d hd).trans he, hstays x hx hp hrow⟩
    · rwa [State.waits, hother hne]
  refine ⟨fun other d hd => ?_, fun other d hd => ?_, fun v hv e he => ?_, fun other d hd howed => ?_,
    fun x hx other d hd hs he => ?_, hturns ▸ h.saves⟩
  · by_cases hne : other = id
    · rwa [hne]
    · rw [hother hne] at hd
      exact Nat.lt_of_lt_of_le (h.bounded other d hd) hbound
  · by_cases hne : other = id
    · rw [hne, hself] at hd
      cases hd
      exact htimed
    · rw [hother hne] at hd
      exact h.timed other d hd
  · obtain ⟨u, hu, hdoom, hjob⟩ := hdoomed v hv e he
    obtain ⟨hactive, d, hd, hde⟩ := h.doomed u hu e hdoom
    rw [← hjob]
    refine ⟨hoff e hactive, ?_⟩
    by_cases hne : u.job.delivery = id
    · exact ⟨d', hne ▸ hself, (hsame d (hne ▸ hd)).trans hde⟩
    · exact ⟨d, (hother hne).trans hd, hde⟩
  · by_cases hne : other = id
    · rw [hne, hself] at hd
      cases hd
      rw [hne]
      exact hcarried howed
    · rw [hother hne] at hd
      refine hothers other d hne (h.carried other d hd ?_)
      exact howed.imp (fun hs => hs) fun hp => ⟨hp.1, fun e he => hends e (hp.2 e he)⟩
  · rw [hturns] at hx
    by_cases hne : other = id
    · rw [hne, hself] at hd
      cases hd
      rw [hne]
      exact (hjoins hs).imp (fun hc => hc) fun hnone => x.covers_of_not_reading (hnone x hx he) t id d'
    · rw [hother hne] at hd
      exact (h.covered x hx other d hd hs he).imp (hothers other d hne) fun hc =>
        Turn.covers_mono hc fun hp => hrank x hx hp other

/-- A worker moves and the queue stays as it is. -/
theorem stay (hw : s.workers[i]? = some w)
    (hmove : ∀ d, s.deliveries w.job.delivery = some d → d.asks w.job.attempts → w.tends d →
      Worker.tends { w with point := point } d)
    (hpoint : Worker.doomed { w with point := point } = none ∨ Worker.doomed { w with point := point } = w.doomed) :
    Tended (s.goto i w point) :=
  h.goto hw (fun _ hj => hj) (fun d hd hasks htends => .inl (hmove d hd hasks htends)) hpoint

/-- A worker goes on with the claim it has. -/
theorem hold (hw : s.workers[i]? = some w) {τ l : Nat}
    (hold : w.point.hold = some (τ, l)) (hsame : point.hold = w.point.hold)
    (hpoint : Worker.doomed { w with point := point } = none ∨ Worker.doomed { w with point := point } = w.doomed) :
    Tended (s.goto i w point) := by
  refine h.stay hw (fun d _ _ htends => ?_) hpoint
  rw [Worker.tends_iff_of_hold hold] at htends
  exact (Worker.tends_iff_of_hold (show Point.hold point = some (τ, l) from hsame.trans hold) d).mpr htends

omit h

variable {d : Delivery}

/-- What is said of the row that is there. -/
theorem only {P : Delivery → Prop} (hd : s.deliveries id = some d) (hp : P d) :
    ∀ d', s.deliveries id = some d' → P d' := by
  intro d' hd'
  rw [hd] at hd'
  cases hd'
  exact hp

variable (h : Tended s) (hw : s.workers[i]? = some w)
include h hw

/-- A worker that has lost its claim leaves. -/
theorem lost {τ l : Nat} (hold : w.point.hold = some (τ, l))
    (hd : s.deliveries w.job.delivery = some d) (hτ : d.claimToken ≠ some τ) :
    Tended ((s.close τ).goto i w .ended) := by
  have hlost : Tended (s.goto i w .ended) :=
    h.stay hw (only hd fun _ htends => absurd ((Worker.tends_iff_of_hold hold d).mp htends) hτ) (.inl rfl)
  exact ⟨hlost.bounded, hlost.timed, hlost.doomed, hlost.carried, hlost.covered, hlost.saves⟩

theorem gone (hnone : s.deliveries w.job.delivery = none) :
    Tended (s.goto i w .ended) :=
  h.stay hw (fun d hd => by rw [hnone] at hd; cases hd) (.inl rfl)

/-- The worker reads the row and its endpoint. -/
theorem read
    (hd : s.deliveries w.job.delivery = some d) : Tended (s.goto i w (.clock (s.endpointOf d))) := by
  refine h.move rfl rfl rfl rfl (fun id d' hd' hc => ?_) fun v hv e he => ?_
  · exact hc.goto hw (fun _ hj => hj) fun _ _ _ => .inl trivial
  · rcases mem_or_eq_of_mem_set hv with hv | rfl
    · exact h.doomed v hv e he
    · -- What it reads is the endpoint as it is.
      have he : (s.endpointOf d).bind (fun (e, copy) =>
          if !copy.active && w.job.trigger ≠ .manual then some e else none) = some e := he
      unfold State.endpointOf at he
      cases hend : d.endpoint with
      | none =>
        rw [hend] at he
        cases he
      | some =>
        rw [hend] at he
        simp only [Option.map_some, Option.bind_some] at he
        split at he
        · next hoff =>
          cases he
          simp only [Bool.and_eq_true, Bool.not_eq_true'] at hoff
          exact ⟨hoff.1, d, hd, hend⟩
        · cases he

/-- The claiming update. -/
theorem claimed {endpoint : Option (Nat × Endpoint)} {now lease : Nat} (hpoint : w.point = .claim endpoint now) (hd : s.deliveries w.job.delivery = some d)
    (hc : d.claimable w.job now)
    (hok : d.status = .pending → ∀ x ∈ s.turns, d.endpoint = some x.endpoint → x.paging = false) :
    Tended (s.claimed i w endpoint lease d) := by
  have hrows : (s.claimed i w endpoint lease d).deliveries =
      update s.deliveries w.job.delivery (some (d.claim w.job s.minted lease)) := rfl
  refine h.put hrows (Nat.le_refl _) (h.bounded _ d hd)
    ((h.timed _ d hd).claim hc _ _) (fun e he => he) rfl (only hd rfl)
    (fun other d₀ hne hcar => hcar.other hw (fun _ hj => hj) (Ne.symm hne)) (fun _ => ?_) (fun x hx hp hwaits => ?_) nofun (doomed_set hw (.inr ?_))
  · obtain ⟨hlt, -⟩ := List.getElem?_eq_some_iff.mp hw
    exact .inr ⟨_, List.mem_set hlt _, rfl, .inr ⟨rfl, rfl⟩, s.minted, lease, rfl, rfl⟩
  · obtain ⟨d₀, hd₀, he, hs⟩ := waits_iff.mp hwaits
    rw [hd] at hd₀
    cases hd₀
    rw [hok hs x hx he] at hp
    cases hp
  · unfold Worker.doomed
    rw [hpoint]

omit h hw

variable {e : Nat} {r : Result} {x : Turn} {copy : Endpoint}

/-- An attempt is given back. -/
theorem givenBack (h : Tended s) (hsound : s.Sound) (hw : s.workers[i]? = some w) {token lease : Nat}
    (hpoint : w.point = .giveBack e token lease) (hd : s.deliveries w.job.delivery = some d)
    (hτ : d.claimToken = some token) (hok : ∀ x ∈ s.turns, x.endpoint = e → x.reading = false) :
    Tended (((s.put w.job.delivery (d.giveBack w.job)).close token).goto i w .ended) := by
  obtain ⟨hs, -⟩ := hsound.held hw (show w.point.hold = some (token, lease) by rw [hpoint]; rfl) hd hτ
  have hdoom : w.doomed = some e := by
    unfold Worker.doomed
    rw [hpoint]
  obtain ⟨hoff, _, hd₁, he⟩ := h.doomed w (mem_of_getElem? hw) e hdoom
  rw [hd] at hd₁
  cases hd₁
  have hrows : (((s.put w.job.delivery (d.giveBack w.job)).close token).goto i w .ended).deliveries =
      update s.deliveries w.job.delivery (some (d.giveBack w.job)) := rfl
  refine h.put hrows (Nat.le_refl _) (h.bounded _ d hd)
    ((h.timed _ d hd).giveBack hs) (fun e he => he) rfl (only hd rfl)
    (fun other d₀ hne hcar => hcar.other hw (fun _ hj => hj) (Ne.symm hne)) (fun howed => ?_) (fun _ _ _ _ => rfl) (fun _ => .inr fun x hx hxe => ?_) (doomed_set hw (.inl rfl))
  · -- The endpoint is off, so the row is not owed.
    rcases howed with hs' | ⟨-, hon⟩
    · cases hs'
    · have hon : (s.endpoints e).active := hon e he
      rw [hoff] at hon
      cases hon
  · have hxe : d.endpoint = some x.endpoint := hxe
    rw [he] at hxe
    exact hok x hx (Option.some.inj hxe).symm

theorem active_settle {e : Endpoint} {p : Policy} {delivered gaveUp : Bool}
    (h : (e.settle p delivered gaveUp).active) : e.active := by
  unfold Endpoint.settle at h
  split at h
  · exact h
  · split at h
    · exact h
    · simp only [Bool.ite_eq_true_distrib, Bool.false_eq_true, if_false_left] at h
      exact h.2

theorem active_settledEndpoints {take : Take} {now : Nat}
    (h : (s.settledEndpoints take r now e).active) : (s.endpoints e).active := by
  unfold State.settledEndpoints at h
  cases hend : take.endpoint with
  | none =>
    rw [hend] at h
    exact h
  | some pair =>
    rw [hend] at h
    have h : (update s.endpoints pair.1
      ((s.endpoints pair.1).settle take.policy r.delivered (take.gaveUp r now)) e).active := h
    by_cases hee : e = pair.1
    · rw [hee, update_self] at h
      rw [hee]
      exact active_settle h
    · rwa [update_of_ne hee] at h

variable (h : Tended s)
include h

/-- A settlement. -/
theorem settled (hsound : s.Sound) (hw : s.workers[i]? = some w) {take : Take} {now : Nat} (hpoint : w.point = .settle take r now) (hd : s.deliveries w.job.delivery = some d)
    (hτ : d.claimToken = some take.token) :
    Tended (((s.settled w take r now d).close take.token).goto i w .ended) := by
  obtain ⟨hs, -, htake⟩ := hsound.held hw (show w.point.hold = some (take.token, take.lease) by rw [hpoint]; rfl) hd hτ
  obtain ⟨hat, -⟩ := htake take (by rw [hpoint]; rfl)
  have hqueue : ∀ {id : Nat} {d : Delivery}, Carried s.queue s.workers id d → w.job.delivery ≠ id →
      Carried (s.queue ++ State.scheduled w.job.delivery take r now) (s.workers.set i { w with point := .ended }) id d :=
    fun hcar hne => hcar.other hw (fun _ hj => mem_append_left _ hj) hne
  have hnext : take.status r now = .pending → Carried (s.queue ++ State.scheduled w.job.delivery take r now)
      (s.workers.set i { w with point := .ended }) w.job.delivery (take.settled r now d) := by
    intro hp
    have hjob : ⟨w.job.delivery, take.n, .scheduled⟩ ∈ State.scheduled w.job.delivery take r now := by
      unfold State.scheduled
      rw [if_pos (Timed.next_of_status hp)]
      exact mem_singleton.mpr rfl
    exact .queued (mem_append_right _ hjob) rfl (.inl ⟨hp, hat⟩)
  have hrows : (((s.settled w take r now d).close take.token).goto i w .ended).deliveries =
      update s.deliveries w.job.delivery (some (take.settled r now d)) := rfl
  refine h.put hrows (Nat.le_refl _) (h.bounded _ d hd)
    (.settled take r now d) (fun e he => active_settledEndpoints he) rfl (only hd rfl)
    (fun other d₀ hne hcar => hqueue hcar (Ne.symm hne)) (fun howed => ?_) (fun x hx hp hwaits => ?_)
    (fun hp => .inl (hnext hp)) (doomed_set hw (.inl rfl))
  · rcases howed with hs' | ⟨hp, -⟩
    · exact absurd hs' (Timed.status_settled take r now)
    · exact hnext hp
  · obtain ⟨d₀, hd₀, -, hs'⟩ := waits_iff.mp hwaits
    rw [hd] at hd₀
    cases hd₀
    rw [hs] at hs'
    cases hs'

/-- One operation of a worker. -/
theorem work (hsound : s.Sound) (hw : s.workers[i]? = some w)
    (hok : quiet s (.work i r)) (ht : s.work policy i w r = some t) : Tended t := by
  have hgone := h.gone hw
  unfold quiet at hok
  simp only [hw] at hok
  obtain ⟨job, point⟩ := w
  cases point with
  | read =>
    cases ht
    exact onRow_cases hgone fun d hd => h.read hw hd
  | clock =>
    cases ht
    exact h.stay hw (fun _ _ _ _ => trivial) (.inr rfl)
  | claim endpoint now =>
    cases ht
    refine onRow_cases hgone fun d hd => ?_
    unfold State.claimStep
    split
    · next hc =>
      refine h.claimed hw rfl hd hc fun hs x hx he => ?_
      simpa [hd, hc, hs, he] using all_eq_true.mp (show (s.turns.all fun x =>
        d.endpoint ≠ some x.endpoint || !x.paging) = true by simpa [hd, hc, hs] using hok) x hx
    · next hc => exact h.stay hw (only hd fun hasks _ => (h.timed _ d hd).unclaimed hasks hc) (.inl rfl)
  | unclaimed =>
    cases ht
    refine onRow_cases hgone fun d hd => ?_
    unfold State.unclaimedStep
    split
    · exact h.goto hw (fun _ hj => mem_append_left _ hj)
        (fun _ _ _ _ => .inr (mem_append_right _ (mem_singleton.mpr rfl))) (.inl rfl)
    · next hun => exact h.stay hw (only hd fun _ htends => absurd htends hun) (.inl rfl)
  | reread =>
    cases ht
    refine onRow_cases hgone fun d hd => h.hold hw rfl ?_ ?_
    · unfold State.proceed
      split
      · rfl
      · split <;> rfl
    · unfold State.proceed
      split
      · exact .inl rfl
      · next e copy =>
        split
        · next hoff =>
          right
          show some e = if !copy.active && job.trigger ≠ .manual then some e else none
          rw [if_pos hoff]
        · exact .inl rfl
  | giveBack =>
    cases ht
    refine onRow_cases hgone fun d hd => ?_
    unfold State.giveBackStep
    split
    · next hτ =>
      refine h.givenBack hsound hw rfl hd hτ fun x hx he => ?_
      simpa [he] using all_eq_true.mp hok x hx
    · next hτ => exact h.lost hw rfl hd hτ
  | send | sent =>
    cases ht
    exact h.hold hw rfl rfl (.inl rfl)
  | settle =>
    cases ht
    refine onRow_cases hgone fun d hd => ?_
    unfold State.settleStep
    split
    · next hτ => exact h.settled hsound hw rfl hd hτ
    · next hτ => exact h.lost hw rfl hd hτ
  | ended => cases ht

/-- Somebody beside the workers writes a row and queues a job with its count. -/
theorem requeued {d' : Delivery} {job : Job} {bound : Nat} (hbound : s.bound ≤ bound)
    (hid : id < bound) (htimed : Timed d') (hsame : ∀ d, s.deliveries id = some d → d'.endpoint = d.endpoint)
    (hpending : d'.status = .pending) (hjob : job.delivery = id) (hcount : d'.attempts = job.attempts) :
    Tended { s.put id d' with bound := bound, queue := s.queue ++ [job] } := by
  have hcarried : Carried (s.queue ++ [job]) s.workers id d' :=
    .queued (mem_append_right _ (mem_singleton.mpr rfl)) hjob (.inl ⟨hpending, hcount⟩)
  exact h.put rfl hbound hid htimed (fun e he => he) rfl hsame
    (fun other d _ hcar => hcar.mono fun _ hj => mem_append_left _ hj) (fun _ => hcarried)
    (fun _ _ _ _ => hpending) (fun _ => .inl hcarried) fun v hv e he => ⟨v, hv, he, rfl⟩

/-- One operation of a redelivery. -/
theorem redo {x : Redelivery} (ht : s.redo i x = some t) : Tended t := by
  obtain ⟨_, rfl⟩ | ⟨d, copy, now, hd, -, hsame, rfl⟩ := redo_cases ht
  · exact ⟨h.bounded, h.timed, h.doomed, h.carried, h.covered, h.saves⟩
  · have hput : Tended { s.put x.delivery (d.redeliver copy now) with
        bound := s.bound, queue := s.queue ++ [⟨x.delivery, copy.attempts, .manual⟩] } := by
      exact h.requeued (Nat.le_refl _) (h.bounded _ d hd) ⟨fun _ => rfl, nofun⟩ (only hd rfl) rfl rfl hsame.1
    exact ⟨hput.bounded, hput.timed, hput.doomed, hput.carried, hput.covered, hput.saves⟩

/-- A change moves on; what it has read covers every row. -/
theorem gotoTurn {point : TurnPoint}
    (hcovers : ∀ id d, s.deliveries id = some d → d.status = .pending → d.endpoint = some x.endpoint →
      Carried s.queue s.workers id d ∨ Turn.covers { x with point := point } s id d)
    (hsaves : ∀ copy, point = .save copy → x.change.turnsOn copy = false) : Tended (s.gotoTurn i x point) := by
  exact ⟨h.bounded, h.timed, h.doomed, h.carried, forall_set h.covered hcovers, forall_set h.saves hsaves⟩

/-- A change is over. -/
theorem turned : Tended (s.gotoTurn i x .ended) :=
  h.gotoTurn (fun _ _ _ _ _ => .inr trivial) nofun

omit h

/-- Nothing is turned on by a change that does not turn its endpoint on. -/
theorem active_saved (hx : x.change.turnsOn copy = false)
    (h : (s.saved x copy e).active) : (s.endpoints e).active := by
  unfold State.saved at h
  by_cases hee : e = x.endpoint
  · rw [hee, update_self] at h
    rw [hee]
    unfold Change.turnsOn at hx
    unfold Endpoint.save at h
    split at h
    · exact h
    · next hdiff =>
      rw [h] at hx hdiff
      cases hc : copy.active <;> simp [hc] at hx hdiff
  · rwa [update_of_ne hee] at h

/-- Only the endpoint of the change is turned on by it. -/
theorem active_saved_of_ne (hne : e ≠ x.endpoint) :
    s.saved x copy e = s.endpoints e := by
  unfold State.saved
  rw [update_of_ne hne]

variable (h : Tended s)
include h

/-- A change that does not turn its endpoint on is saved. -/
theorem save (hx : x.change.turnsOn copy = false) :
    Tended { s with endpoints := s.saved x copy } := by
  refine ⟨h.bounded, h.timed, fun w hw e he => ?_, fun id d hd howed => ?_, h.covered, h.saves⟩
  · obtain ⟨hoff, hrow⟩ := h.doomed w hw e he
    refine ⟨?_, hrow⟩
    rw [← Bool.not_eq_true] at hoff ⊢
    exact fun hon => hoff (active_saved hx hon)
  · exact h.carried id d hd (howed.imp (fun hs => hs) fun hp => ⟨hp.1, fun e he => active_saved hx (hp.2 e he)⟩)

variable {found : List (Nat × Nat)}

/-- One more page is read. -/
theorem scanned (hx : x ∈ s.turns) {k : Nat}
    (hpoint : x.point = .scan copy k found) :
    Tended (s.gotoTurn i x
      (if (s.page x.endpoint k).length = pageSize then .scan copy (k + 1) (found ++ s.page x.endpoint k)
        else .commit copy (found ++ s.page x.endpoint k))) := by
  refine h.gotoTurn (fun id d hd hs he => ?_) fun copy' hp => ?_
  · refine (h.covered x hx id d hd hs he).imp (fun hc => hc) fun hc => ?_
    unfold Turn.covers at hc
    simp only [hpoint] at hc
    have hpage : (id, d.attempts) ∈ found ++ s.page x.endpoint k ∨
        ((s.page x.endpoint k).length = pageSize ∧ (k + 1) * pageSize ≤ s.rank x.endpoint id) := by
      rcases hc with hfound | hk
      · exact .inl (mem_append_left _ hfound)
      · exact (page_or_beyond hd (h.bounded id d hd) (waits_iff.mpr ⟨d, hd, he, hs⟩) hk).imp
          (mem_append_right _) fun hb => hb
    split
    · exact hpage.imp (fun hf => hf) And.right
    · next hshort => exact hpage.resolve_right fun hb => hshort hb.1
  · split at hp <;> cases hp

/-- The transaction that turns an endpoint on commits, when no worker has seen it off. -/
theorem committed (hx : x ∈ s.turns)
    (hpoint : x.point = .commit copy found) (hok : ∀ w ∈ s.workers, w.doomed ≠ some x.endpoint) :
    Tended (s.resumed x copy found) := by
  have hqueue : ∀ {id : Nat} {d : Delivery}, Carried s.queue s.workers id d →
      Carried (s.resumed x copy found).queue s.workers id d := fun hc => hc.mono fun _ hj => mem_append_left _ hj
  refine ⟨h.bounded, h.timed, fun w hw e he => ?_, fun id d hd howed => ?_,
    fun y hy id d hd hs he => (h.covered y hy id d hd hs he).imp hqueue fun hc => hc, h.saves⟩
  · have hne : e ≠ x.endpoint := by
      rintro rfl
      exact hok w hw he
    show (s.saved x copy e).active = false ∧ _
    rw [active_saved_of_ne hne]
    exact h.doomed w hw e he
  · rcases howed with hs | ⟨hs, hon⟩
    · exact hqueue (h.carried id d hd (.inl hs))
    · by_cases he : d.endpoint = some x.endpoint
      · -- It was found, and is queued now.
        rcases h.covered x hx id d hd hs he with hc | hfound
        · exact hqueue hc
        · unfold Turn.covers at hfound
          simp only [hpoint] at hfound
          exact .queued (mem_append_right _ (mem_map.mpr ⟨_, hfound, rfl⟩)) rfl (.inl ⟨hs, rfl⟩)
      · refine hqueue (h.carried id d hd (.inr ⟨hs, fun e hde => ?_⟩))
        have hon : (s.saved x copy e).active := hon e hde
        rwa [active_saved_of_ne (fun hee => he (hee ▸ hde))] at hon

/-- One operation of a change. -/
theorem change (hx : s.turns[i]? = some x) (hok : quiet s (.change i))
    (ht : s.change i x = some t) : Tended t := by
  have hmem := mem_of_getElem? hx
  unfold quiet at hok
  simp only [hx] at hok
  unfold State.change at ht
  generalize hpoint : x.point = point at ht
  cases point with
  | ended => cases ht
  | read =>
    cases ht
    split
    · exact h.gotoTurn (fun id d _ _ _ => .inr (Turn.covers_of_not_reading rfl s id d)) nofun
    · next hon =>
      refine h.gotoTurn (fun id d _ _ _ => .inr trivial) fun copy hp => ?_
      cases hp
      exact Bool.not_eq_true _ ▸ hon
  | save copy =>
    cases ht
    exact (h.save (h.saves x hmem copy hpoint)).turned
  | scan =>
    cases ht
    exact h.scanned hmem hpoint
  | commit =>
    cases ht
    refine (h.committed hmem hpoint fun w hw => ?_).turned
    obtain ⟨e, c, point⟩ := x
    cases hpoint
    exact of_decide_eq_true (all_eq_true.mp hok w hw)

/-- **One step.** -/
theorem step {a : Action} (hsound : s.Sound) (hok : quiet s a)
    (ht : s.step policy a = some t) : Tended t := by
  cases a with
  | tick | redeliver =>
    cases ht
    exact ⟨h.bounded, h.timed, h.doomed, h.carried, h.covered, h.saves⟩
  | record id =>
    simp only [State.step] at ht
    split at ht
    · cases ht
    · split at ht
      · cases ht
        exact h
      · next hnew =>
        cases ht
        refine h.requeued (Nat.le_max_left _ _) (Nat.lt_of_lt_of_le (Nat.lt_succ_self id) (Nat.le_max_right _ _))
          ⟨fun _ => rfl, fun h => by cases h⟩ (fun d hd => ?_) rfl rfl rfl
        rw [hd] at hnew
        exact absurd rfl hnew
  | push =>
    cases ht
    exact h.move rfl rfl rfl rfl (fun _ _ _ hc => hc.mono fun _ hj => mem_append_left _ hj) h.doomed
  | take =>
    obtain ⟨_, hk, rfl⟩ := Option.map_eq_some_iff.mp ht
    exact h.move rfl rfl rfl rfl (fun _ _ _ hc => hc.take hk) (forall_concat h.doomed fun _ he => by cases he)
  | work =>
    obtain ⟨v, hv, ht⟩ := Option.bind_eq_some_iff.mp ht
    exact h.work hsound hv hok ht
  | drop =>
    obtain ⟨v, hv, ht⟩ := Option.bind_eq_some_iff.mp ht
    split at ht
    · cases ht
    · cases ht
      exact h.goto hv (fun _ hj => mem_append_left _ hj)
        (fun _ _ _ _ => .inr (mem_append_right _ (mem_singleton.mpr rfl))) (.inl rfl)
  | redo =>
    obtain ⟨x, -, ht⟩ := Option.bind_eq_some_iff.mp ht
    exact h.redo ht
  | turn =>
    cases ht
    exact ⟨h.bounded, h.timed, h.doomed, h.carried, forall_concat h.covered fun _ _ _ _ _ => .inr trivial,
      forall_concat h.saves fun _ hp => by cases hp⟩
  | change =>
    obtain ⟨x, hx, ht⟩ := Option.bind_eq_some_iff.mp ht
    exact h.change hx hok ht

end Tended

theorem tended_of_reach {policy : Policy} {now : Nat} {endpoints : Nat → Endpoint}
    (h : Reach (State.step policy) quiet (State.initial now endpoints) s) : s.Sound ∧ Tended s :=
  h.invariant (I := fun s => s.Sound ∧ Tended s) ⟨sound_initial now endpoints, tended_initial now endpoints⟩
    fun _ _ _ hs hok ht => ⟨sound_step hs.1 ht, hs.2.step hs.1 hok ht⟩

/-- **Nothing is left waiting.**  In a run that is quiet while endpoints are turned on, a delivery that
waits and whose endpoint is on, or that has none, has a job with its count in the queue or in a worker's
hands; and one that is being sent has a job with the count before. -/
theorem waiting_is_carried {policy : Policy} {now : Nat} {endpoints : Nat → Endpoint} {s : State}
    (h : Reach (State.step policy) quiet (State.initial now endpoints) s) {id : Nat} {d : Delivery}
    (hd : s.deliveries id = some d) :
    (d.status = .pending → (∀ e, d.endpoint = some e → (s.endpoints e).active = true) →
      s.carries id d.attempts = true) ∧
    (d.status = .processing → s.carries id (d.attempts - 1) = true) := by
  have htended := (tended_of_reach h).2
  refine ⟨fun hs hon => ?_, fun hs => ?_⟩
  · refine (htended.carried id d hd (.inr ⟨hs, hon⟩)).carries fun m hm => ?_
    rcases hm with ⟨-, hm⟩ | ⟨hs', -⟩
    · exact hm.symm
    · rw [hs] at hs'
      cases hs'
  · refine (htended.carried id d hd (.inl hs)).carries fun m hm => ?_
    rcases hm with ⟨hs', -⟩ | ⟨-, hm⟩
    · rw [hs] at hs'
      cases hs'
    · omega

/-! ### Where it fails -/

/-- One endpoint, which is off. -/
def offEndpoint : State := .initial 0 fun _ => ⟨false, 0, fiveSeconds⟩

/-- The delivery waits, its endpoint is on, and no job has its count. -/
def State.stranded (s : State) (id : Nat) : Bool :=
  (s.deliveries id).any fun d =>
    d.status = .pending && d.endpoint.all (fun e => (s.endpoints e).active) && !s.carries id d.attempts

/-- An attempt given back, and the endpoint turned on after it: the delivery is queued again. -/
theorem waiting_is_carried_in_turn :
    ∃ s : State, ((s.deliveries 7).any fun d => d.status = .pending) = true ∧ s.carries 7 0 = true := by
  obtain ⟨s, hrun, d, hd, hs, hn, he, hon⟩ : ∃ s, Reach (State.step fiveSeconds) quiet offEndpoint s ∧
      ∃ d ∈ s.deliveries 7, d.status = .pending ∧ d.attempts = 0 ∧ d.endpoint = some 0 ∧
        (s.endpoints 0).active :=
    Run.exists_reach [.record 7 (some 0) 3 [0] .scheduled, .take 0, .work 0 refused, .work 0 refused,
      .work 0 refused, .work 0 refused, .work 0 refused, .turn 0 .enable, .change 0, .change 0, .change 0]
      (by decide +kernel)
  refine ⟨s, by simp [Option.mem_def.mp hd, hs], hn ▸ (waiting_is_carried hrun hd).1 hs fun e hde => ?_⟩
  rw [he] at hde
  cases hde
  exact hon

/-- **A delivery left behind.**  A worker has claimed a delivery whose endpoint it saw off.  The endpoint
is turned on, and the delivery is not among those that wait; then the worker gives it back.  And of 201
waiting deliveries, the last of which has no job, the first is claimed between the two pages: the second
page begins one row too late. -/
theorem waiting_is_stranded :
    (Run.follow (State.step fiveSeconds) (fun _ _ => true) offEndpoint
      [.record 7 (some 0) 3 [0] .scheduled, .take 0, .work 0 refused, .work 0 refused, .work 0 refused, .turn 0 .enable,
        .change 0, .change 0, .change 0, .work 0 refused, .work 0 refused]).any (fun s => s.stranded 7) = true ∧
    (Run.follow (State.step fiveSeconds) (fun _ _ => true) offEndpoint
      ([.record 200 (some 0) 3 [0] .scheduled, .take 0] ++ replicate 5 (.work 0 refused) ++
        (range 200).map (fun id => .record id (some 0) 3 [0] .manual) ++
        [.turn 0 .enable, .change 0, .change 0, .take 0, .work 1 refused, .work 1 refused, .work 1 refused,
          .change 0, .change 0])).any (fun s => s.stranded 200) = true := by
  constructor
  · decide +kernel
  · decide +kernel

end Hesape.Webhook
