import Hesape.Bus.Chain

/-!
# One link after the other

The links of a chain that follow the one at hand travel with it, so a link is known by how many
remain after it (`Message.remaining`), and the chain is at one link at a time.  That is so as long as
a link is reported after its work is done.  The link of a batch is reported when the batch has been
dispatched: its report pushes the next link at once, and the batch's `Finally` pushes it again, in
the place of the batch's own.  `fits` is the condition that a batch, if it has jobs to dispatch, is
the chain's last link, and that it and the chain do not both have a `Catch`.

Such a chain is in one of four phases (`Phase`): one link is under way, or a link has failed, or the
last one is done, or it was a batch, which then goes on by itself.
-/

namespace Hesape.Bus.Chain

open Hesape.Run (Reach sum_countP_set_add)
open List

/-! ### What a run has done -/

/-- How many links follow, if this is a link. -/
def Message.remaining (m : Message) : Option Nat :=
  match m.sent with
  | .plain _ => none
  | .wrapped e => if e.batch = none then some e.chain.length else none

def Message.plain (m : Message) : Bool :=
  match m.sent with
  | .plain _ => true
  | .wrapped _ => false

/-- The id of a job of the first batch. -/
def Message.member (m : Message) : Option String :=
  match m.sent with
  | .plain _ => none
  | .wrapped e => if e.batch = some 0 then some e.job else none

abbrev isLink (r : Nat) (x : Reason × Message) : Bool := x.2.remaining = some r

abbrev isChainCatch (x : Reason × Message) : Bool := x.1 = .chainCatch

abbrev isCallback (m : Moment) (x : Reason × Message) : Bool := x.1 = .callback 0 m

def State.linkReported (s : State) (r : Nat) (ok : Bool) : Bool :=
  s.reports.any fun x => x.1.remaining = some r && x.2 = ok

/-- A link, or a job of a batch, has failed. -/
def State.failed (s : State) : Bool := s.reports.any fun x => !x.1.plain && !x.2

/-- The reports of the jobs of the first batch. -/
def State.memberReports (s : State) : List Report :=
  s.reports.filterMap fun x => x.1.member.map fun id => ⟨id, x.2⟩

def State.idle (s : State) : Bool := s.todo.all (· = [])

/-- A batch that has jobs to dispatch is the last link, and it and the chain do not both have a
`Catch`. -/
def fits (catch_ : Option Job) : List Step → Bool
  | [] => true
  | s :: rest =>
    (match s.payload with
      | .raw _ => true
      | .batch c => !c.dispatches || (rest = [] && (c.options.catch_.isNone || catch_.isNone))) && fits catch_ rest

/-! ### What is issued and what is under way -/

def Task.pushes (P : Reason × Message → Bool) : Task → Bool
  | .push why m => P (why, m)
  | _ => false

def Task.message : Task → Option Message
  | .push _ m => some m
  | _ => none

/-- How much of a kind was pushed or is about to be. -/
def State.issued (s : State) (P : Reason × Message → Bool) : Nat :=
  s.pushed.countP P + (s.todo.map (·.countP (Task.pushes P))).sum

/-- The messages that are on the queue or about to be. -/
def State.live (s : State) : List Message := s.queue ++ s.todo.flatten.filterMap Task.message

theorem perm_flatten_set {α : Type} {x : α} {rest : List α} : ∀ {l : List (List α)} {i : Nat},
    l[i]? = some (x :: rest) → (x :: (l.set i rest).flatten).Perm l.flatten := by
  intro l
  induction l with
  | nil =>
    intro i hi
    simp at hi
  | cons y l ih =>
    intro i hi
    cases i with
    | zero =>
      have hy : y = x :: rest := by simpa using hi
      subst hy
      simp
    | succ i =>
      have := ih (i := i) (by simpa using hi)
      simp only [set_cons_succ, flatten_cons]
      exact perm_middle.symm.trans (this.append_left y)

variable {i n front : Nat} {ids : List String} {m : Message} {c : ChainedBatch} {b : Batch Message}
  {links : List Step} {catch_ : Option Job} {s s' u : State} {ok : Bool} {outcome : Option Bool}

/-- What a push that is due leaves as it is. -/
theorem go_spec (h : step s (.go i) = some u) :
    u.live.Perm s.live ∧ (∀ P, u.issued P = s.issued P) ∧ u.reports = s.reports ∧
      (u.batches = s.batches ∨ ∃ n d, u.batches = s.batches.modify n fun b => b.perform d) := by
  simp only [step] at h
  split at h
  · next t rest hi =>
    have hflat := (perm_flatten_set hi).filterMap Task.message
    have hsum : ∀ P, _ := fun P => sum_countP_set_add (p := Task.pushes P) hi
    cases h
    cases t with
    | push why m =>
      refine ⟨?_, fun P => ?_, rfl, .inl rfl⟩
      · simp only [State.live, State.perform, append_assoc, singleton_append]
        refine List.Perm.append_left s.queue ?_
        simpa [filterMap_cons, Task.message] using hflat
      · have := hsum P
        rw [show Task.pushes P (.push why m) = P (why, m) from rfl] at this
        simp only [State.issued, State.perform, countP_append, countP_singleton]
        omega
    | markAsFinished n | cancel n =>
      refine ⟨?_, fun P => ?_, rfl, .inr ⟨n, _, rfl⟩⟩
      · refine List.Perm.append_left s.queue ?_
        simpa [filterMap_cons, Task.message, State.perform] using hflat
      · have := hsum P
        simpa [State.issued, State.perform, Task.pushes] using this
  · cases h

/-- What a report leaves and what it adds. -/
theorem handled_spec (s : State) (m : Message) (e : Envelope) (ok : Bool) (first : List Task) :
    let tasks := first ++ (reportBatch s.batches e ok).2 ++ e.chainTasks ok
    (s.handled m e ok first).live = s.live ++ tasks.filterMap Task.message ∧
      (∀ P, (s.handled m e ok first).issued P = s.issued P + tasks.countP (Task.pushes P)) := by
  refine ⟨?_, fun P => ?_⟩
  · simp [State.live, State.handled]
  · simp only [State.issued, State.handled, map_append, map_cons, map_nil, sum_append,
      sum_cons, sum_nil]
    omega

/-- A job that was under way is taken off the queue. -/
structure Taken (s : State) (m : Message) (s' : State) : Prop where
  live : s.live.Perm (m :: s'.live)
  issued : ∀ P, s'.issued P = s.issued P
  reports : s'.reports = s.reports
  batches : s'.batches = s.batches

theorem deliver_spec (h : step s (.deliver i ok ids) = some u) :
    ∃ (m : Message) (s' : State), Taken s m s' ∧ s'.deliver m ok ids = some u := by
  simp only [step] at h
  split at h
  · cases h
  · next m hm =>
    refine ⟨m, { s with queue := s.queue.eraseIdx i }, ⟨?_, fun _ => rfl, rfl, rfl⟩, h⟩
    obtain ⟨hi, rfl⟩ := List.getElem?_eq_some_iff.mp hm
    show (s.queue ++ _).Perm (_ :: (s.queue.eraseIdx i ++ _))
    rw [← List.cons_append]
    exact ((List.getElem_cons_eraseIdx_perm hi).symm).append_right _

/-! ### How far the chain is -/

/-- The chain of `n` links has come to the link with `front` links after it, whose outcome is
`outcome` when it has reported. -/
structure Ledger (s : State) (n front : Nat) (outcome : Option Bool) : Prop where
  pushes : ∀ r, s.issued (isLink r) = if front ≤ r ∧ r < n then 1 else 0
  done : ∀ r, s.linkReported r true = true ↔ (front < r ∧ r < n) ∨ (r = front ∧ outcome = some true)
  stopped : ∀ r, s.linkReported r false = true ↔ r = front ∧ outcome = some false

theorem linkReported_snoc (h : u.reports = s.reports ++ [(m, ok)]) (r : Nat) (ok' : Bool) :
    u.linkReported r ok' ↔ s.linkReported r ok' ∨ (m.remaining = some r ∧ ok = ok') := by
  simp [State.linkReported, h]

/-- The link has succeeded, and the next one is pushed. -/
theorem Ledger.next (h : Ledger s n (front + 1) none) (hn : front + 1 < n)
    (hm : m.remaining = some (front + 1)) (hr : u.reports = s.reports ++ [(m, true)])
    (hi : ∀ r, u.issued (isLink r) = s.issued (isLink r) + if r = front then 1 else 0) :
    Ledger u n front none where
  pushes r := by
    rw [hi, h.pushes]
    split <;> split <;> split <;> omega
  done r := by
    rw [linkReported_snoc hr, h.done, hm]
    simp
    omega
  stopped r := by
    rw [linkReported_snoc hr, h.stopped]
    simp

/-- The link has reported, and no link is pushed. -/
theorem Ledger.settle (h : Ledger s n front none) (hm : m.remaining = some front) (hr : u.reports = s.reports ++ [(m, ok)])
    (hi : ∀ r, u.issued (isLink r) = s.issued (isLink r)) : Ledger u n front (some ok) where
  pushes r := by rw [hi, h.pushes]
  done r := by
    rw [linkReported_snoc hr, h.done, hm]
    simp [eq_comm]
  stopped r := by
    rw [linkReported_snoc hr, h.stopped, hm]
    simp [eq_comm]

/-- What is no link changes nothing. -/
theorem Ledger.same (h : Ledger s n front outcome) (hl : ∀ r ok, u.linkReported r ok = s.linkReported r ok)
    (hi : ∀ r, u.issued (isLink r) = s.issued (isLink r)) : Ledger u n front outcome where
  pushes r := by rw [hi, h.pushes]
  done r := by rw [hl, h.done]
  stopped r := by rw [hl, h.stopped]

/-! ### The phases -/

/-- No batch has been dispatched. -/
structure Still (s : State) : Prop where
  batches : s.batches = []
  callbacks : ∀ m, s.issued (isCallback m) = 0
  members : s.memberReports = []

/-- The last link was a batch, and goes on by itself. -/
structure Dispatched (s : State) (c : ChainedBatch) (catch_ : Option Job) (ids : List String)
    (b : Batch Message) : Prop where
  batches : s.batches = [b]
  options : b.options = c.toPendingBatch catch_
  fresh : fresh ids c.jobs.length = true
  tracks : Tracks b ids s.memberReports fun m => s.issued (isCallback m)
  before : s.issued (isCallback .before) = c.options.before.toList.length
  once : (s.memberReports.map (·.job)).Nodup
  ours : ∀ r ∈ s.memberReports, r.job ∈ ids
  kinds : ∀ m ∈ s.live, m.plain = true ∨
    ∃ queue name id p, m = ⟨queue, name, .wrapped { batch := some 0, job := id, body := .raw p }⟩
  owed : (s.live.filterMap Message.member).Perm (ids.filter fun id => !reported s.memberReports id)

inductive Phase (links : List Step) (catch_ : Option Job) (s : State) : Prop
  | running {cur : Step} {rest : List Step} (suffix : (cur :: rest) <:+ links)
      (fit : fits catch_ (cur :: rest) = true) (ledger : Ledger s links.length rest.length none)
      (live : s.live.Perm [linkMessage cur rest catch_]) (still : Still s)
      (catches : s.issued isChainCatch = 0) (fine : s.failed = false)
  | stopped {front : Nat} (ledger : Ledger s links.length front (some false))
      (live : ∀ m ∈ s.live, m.plain = true) (still : Still s)
      (catches : s.issued isChainCatch = catch_.toList.length) (failed : s.failed = true)
  | finished (ledger : Ledger s links.length 0 (some true)) (live : ∀ m ∈ s.live, m.plain = true)
      (still : Still s) (catches : s.issued isChainCatch = 0) (fine : s.failed = false)
      (last : ∀ st c, links.getLast? = some st → st.payload = .batch c → c.dispatches = false)
  | batch {st : Step} {c : ChainedBatch} {ids : List String} {b : Batch Message}
      (last : links.getLast? = some st) (payload : st.payload = .batch c)
      (alone : c.options.catch_.isNone = true ∨ catch_.isNone = true)
      (ledger : Ledger s links.length 0 (some true)) (dispatched : Dispatched s c catch_ ids b)
      (catches : s.issued isChainCatch = 0) (failed : s.failed = !s.memberReports.all (·.ok))

/-- The second state is the first, as far as the chain is concerned. -/
structure Like (s u : State) : Prop where
  links : ∀ r ok, u.linkReported r ok = s.linkReported r ok
  members : u.memberReports = s.memberReports
  failed : u.failed = s.failed
  issued : ∀ P, u.issued P = s.issued P
  live : ∀ x ∈ u.live, x ∈ s.live
  owed : (u.live.filterMap Message.member).Perm (s.live.filterMap Message.member)

theorem Still.same (h : Still s) (hb : u.batches = s.batches) (hm : u.memberReports = s.memberReports)
    (hi : ∀ P, u.issued P = s.issued P) : Still u :=
  ⟨hb.trans h.batches, fun m => (hi _).trans (h.callbacks m), hm.trans h.members⟩

theorem Dispatched.same {b' : Batch Message} (h : Dispatched s c catch_ ids b) (k : Like s u) (hb : u.batches = [b'])
    (ho : b'.options = b.options)
    (ht : ∀ jobs reports issued, Tracks b jobs reports issued → Tracks b' jobs reports issued) :
    Dispatched u c catch_ ids b' := by
  refine ⟨hb, ho.trans h.options, h.fresh, ?_, (k.issued _).trans h.before, ?_, ?_, fun m hm => h.kinds m (k.live m hm), ?_⟩
  all_goals rw [k.members]
  · rw [show (fun m => u.issued (isCallback m)) = fun m => s.issued (isCallback m) from funext fun m => k.issued _]
    exact ht _ _ _ h.tracks
  · exact h.once
  · exact h.ours
  · exact k.owed.trans h.owed

theorem Phase.like (h : Phase links catch_ s) (k : Like s u)
    (hrun : ∀ cur rest, s.live.Perm [linkMessage cur rest catch_] → u.live.Perm [linkMessage cur rest catch_])
    (hb : u.batches = s.batches ∨ ∃ n d, u.batches = s.batches.modify n fun b => b.perform d) :
    Phase links catch_ u := by
  have hledger : ∀ {front outcome}, Ledger s links.length front outcome → Ledger u links.length front outcome :=
    fun hg => hg.same k.links fun r => k.issued _
  have hstill : Still s → Still u := by
    intro hs
    refine hs.same ?_ k.members k.issued
    rcases hb with hb | ⟨n, d, hb⟩
    · exact hb
    · rw [hb, hs.batches]
      cases n <;> rfl
  have hplain : (∀ m ∈ s.live, m.plain) → ∀ m ∈ u.live, m.plain := fun h m hm => h m (k.live m hm)
  cases h with
  | running suffix fit ledger live still catches fine =>
    exact .running suffix fit (hledger ledger) (hrun _ _ live) (hstill still) ((k.issued _).trans catches) (k.failed.trans fine)
  | stopped ledger live still catches failed =>
    exact .stopped (hledger ledger) (hplain live) (hstill still) ((k.issued _).trans catches) (k.failed.trans failed)
  | finished ledger live still catches fine last =>
    exact .finished (hledger ledger) (hplain live) (hstill still) ((k.issued _).trans catches) (k.failed.trans fine) last
  | @batch _ c ids b last payload alone ledger d catches failed =>
    obtain ⟨b', hd⟩ : ∃ b', Dispatched u c catch_ ids b' := by
      rcases hb with hb | ⟨n, e, hb⟩
      · exact ⟨b, d.same k (hb.trans d.batches) rfl fun _ _ _ ht => ht⟩
      · rw [d.batches] at hb
        cases n with
        | zero => exact ⟨_, d.same k hb (by cases e <;> rfl) fun _ _ _ ht => ht.perform e⟩
        | succ n => exact ⟨b, d.same k (hb.trans (by cases n <;> rfl)) rfl fun _ _ _ ht => ht⟩
    exact .batch last payload alone (hledger ledger) hd ((k.issued _).trans catches) (by rw [k.failed, failed, k.members])

/-- A push that was due changes nothing that counts. -/
theorem Phase.go (h : Phase links catch_ s) (hu : step s (.go i) = some u) : Phase links catch_ u := by
  obtain ⟨hl, hi, hr, hb⟩ := go_spec hu
  refine h.like ⟨fun r ok => ?_, ?_, ?_, hi, fun x => hl.mem_iff.mp, hl.filterMap _⟩ (fun _ _ => hl.trans) hb
  · rw [State.linkReported, hr, State.linkReported]
  · rw [State.memberReports, hr, State.memberReports]
  · rw [State.failed, hr, State.failed]

/-! ### Deliveries -/

theorem memberReports_snoc (h : u.reports = s.reports ++ [(m, ok)]) :
    u.memberReports = s.memberReports ++ (m.member.map fun id => (⟨id, ok⟩ : Report)).toList := by
  simp only [State.memberReports, h, filterMap_append, filterMap_cons, filterMap_nil]
  cases m.member <;> rfl

theorem failed_snoc (h : u.reports = s.reports ++ [(m, ok)]) :
    u.failed = (s.failed || (!m.plain && !ok)) := by
  simp [State.failed, h]

theorem remaining_of_plain (h : m.plain) : m.remaining = none ∧ m.member = none := by
  unfold Message.plain at h
  unfold Message.remaining Message.member
  split at h
  · simp
  · cases h

theorem deliver_plain (hm : m.plain) (h : s.deliver m ok ids = some u) : u = { s with reports := s.reports ++ [(m, ok)] } := by
  unfold Message.plain at hm
  unfold State.deliver at h
  split at hm
  · next hs =>
    rw [hs] at h
    exact (Option.some.inj h).symm
  · cases hm

theorem linkReported_of_none (h : u.reports = s.reports ++ [(m, ok)]) (hm : m.remaining = none) (r : Nat) (ok' : Bool) :
    u.linkReported r ok' = s.linkReported r ok' := by
  simp [State.linkReported, h, hm]

/-- When only callbacks are under way, deliveries change nothing that counts. -/
theorem Phase.deliver_callback (h : Phase links catch_ s) (hm : m.plain) (ht : Taken s m s')
    (hu : s'.deliver m ok ids = some u) : Phase links catch_ u := by
  obtain ⟨hl, hi, hr, hb⟩ := ht
  have hu := deliver_plain hm hu
  obtain ⟨hrem, hmem⟩ := remaining_of_plain hm
  have hreports : u.reports = s.reports ++ [(m, ok)] := by rw [hu, ← hr]
  have hlive : u.live = s'.live := by rw [hu]; rfl
  refine h.like ⟨linkReported_of_none hreports hrem, ?_, ?_, fun P => ?_, fun x hx => ?_, ?_⟩ (fun cur rest live => ?_)
    (.inl (by rw [← hb, hu]))
  · rw [memberReports_snoc hreports, hmem]
    simp
  · rw [failed_snoc hreports, hm]
    simp
  · rw [← hi, hu]
    rfl
  · exact hl.mem_iff.mpr (mem_cons_of_mem _ (hlive ▸ hx))
  · have := hl.symm.filterMap Message.member
    rwa [filterMap_cons_none hmem, ← hlive] at this
  · -- The link under way is no callback.
    have := (hl.symm.trans live).mem_iff.mp (mem_cons_self)
    rw [mem_singleton.mp this] at hm
    cases hm

/-- The envelope of a link. -/
abbrev linkEnvelope (s : Step) (rest : List Step) (catch_ : Option Job) : Envelope :=
  { chain := rest, catch_, body := s.payload }

/-- A link is at work: nothing else is under way, and nothing has failed. -/
structure AtWork (links : List Step) (catch_ : Option Job) (cur : Step) (rest : List Step) (s : State) : Prop where
  suffix : (cur :: rest) <:+ links
  fit : fits catch_ (cur :: rest) = true
  ledger : Ledger s links.length rest.length none
  live : s.live = []
  still : Still s
  catches : s.issued isChainCatch = 0
  fine : s.failed = false

section Link

variable {cur : Step} {rest : List Step} {first : List Task}

/-- What the report of a link leaves. -/
theorem linkHandled_spec (hu : u = s.handled (linkMessage cur rest catch_) (linkEnvelope cur rest catch_) ok first) :
    u.reports = s.reports ++ [(linkMessage cur rest catch_, ok)] ∧ u.batches = s.batches ∧
    u.live = s.live ++ (first ++ (linkEnvelope cur rest catch_).chainTasks ok).filterMap Task.message ∧
    (∀ P, u.issued P = s.issued P + (first ++ (linkEnvelope cur rest catch_).chainTasks ok).countP (Task.pushes P)) ∧
    u.memberReports = s.memberReports ∧ u.failed = (s.failed || !ok) := by
  obtain ⟨hlive, hissued⟩ := handled_spec s (linkMessage cur rest catch_) (linkEnvelope cur rest catch_) ok first
  have hr : u.reports = s.reports ++ [(linkMessage cur rest catch_, ok)] := by rw [hu]; rfl
  refine ⟨hr, by rw [hu]; rfl, ?_, fun P => ?_, ?_, ?_⟩
  · rw [hu, hlive]
    simp [reportBatch]
  · rw [hu, hissued]
    simp [reportBatch]
  · rw [memberReports_snoc hr]
    simp [linkMessage, Message.member]
  · rw [failed_snoc hr]
    simp [linkMessage, Message.plain]

/-- A link that fails stops the chain. -/
theorem AtWork.failed (h : AtWork links catch_ cur rest s)
    (hu : u = s.handled (linkMessage cur rest catch_) (linkEnvelope cur rest catch_) false []) :
    Phase links catch_ u := by
  obtain ⟨-, -, ledger, live, still, catches, -⟩ := h
  obtain ⟨hr, hb, hl, hi, hm, hf⟩ := linkHandled_spec hu
  have htasks : (linkEnvelope cur rest catch_).chainTasks false = (catch_.map fun j => Task.push .chainCatch j.message).toList :=
    rfl
  rw [nil_append, htasks] at hl
  simp only [nil_append, htasks] at hi
  refine @Phase.stopped _ _ _ rest.length (ledger.settle ?_ hr fun r => ?_) (fun m hm => ?_)
    ⟨hb.trans still.batches, fun m => ?_, hm.trans still.members⟩ ?_ (by rw [hf]; simp)
  · simp [linkMessage, Message.remaining]
  · rw [hi]
    cases catch_ <;> simp [Task.pushes, isLink, Job.message, Message.remaining]
  · rw [hl, live] at hm
    cases catch_ with
    | none => simp at hm
    | some =>
      simp [Task.message] at hm
      rw [hm]
      rfl
  · rw [hi, still.callbacks]
    cases catch_ <;> simp [Task.pushes, isCallback]
  · rw [hi, catches]
    cases catch_ <;> simp [Task.pushes, isChainCatch]

/-- A job that succeeds lets the chain go on. -/
theorem AtWork.succeeded (h : AtWork links catch_ cur rest s) (hraw : ∃ p, cur.payload = .raw p)
    (hu : u = s.handled (linkMessage cur rest catch_) (linkEnvelope cur rest catch_) true []) :
    Phase links catch_ u := by
  obtain ⟨suffix, fit, ledger, live, still, catches, fine⟩ := h
  obtain ⟨hr, hb, hl, hi, hm, hf⟩ := linkHandled_spec hu
  have hstill : (∀ m, u.issued (isCallback m) = s.issued (isCallback m)) → Still u := fun hc =>
    ⟨hb.trans still.batches, fun m => (hc m).trans (still.callbacks m), hm.trans still.members⟩
  have hrem : (linkMessage cur rest catch_).remaining = some rest.length := by simp [linkMessage, Message.remaining]
  cases rest with
  | nil =>
    simp only [nil_append, Envelope.chainTasks, Envelope.dispatchNextJobInChain, countP_nil, Nat.add_zero] at hi
    simp only [nil_append, Envelope.chainTasks, Envelope.dispatchNextJobInChain, filterMap_nil, live] at hl
    refine .finished (ledger.settle hrem hr fun r => hi _) (fun m hm => by simp [hl] at hm) (hstill fun m => hi _)
      ((hi _).trans catches) (by rw [hf, fine]; rfl) fun st c hst hc => ?_
    obtain ⟨_, rfl⟩ := suffix
    obtain ⟨p, hp⟩ := hraw
    have : cur = st := by simpa using hst
    rw [this, hc] at hp
    cases hp
  | cons next rest =>
    simp only [nil_append, Envelope.chainTasks, Envelope.dispatchNextJobInChain] at hi hl
    have hlen : rest.length + 1 < links.length := by
      have := suffix.length_le
      simp only [length_cons] at this
      omega
    refine @Phase.running _ _ _ next rest ((suffix_cons _ _).trans suffix) ?_
      (ledger.next hlen hrem hr fun r => ?_) ?_ (hstill fun m => ?_) ?_ (by rw [hf, fine]; rfl)
    · rw [fits, Bool.and_eq_true] at fit
      exact fit.2
    · rw [hi]
      simp [Task.pushes, isLink, linkMessage, Message.remaining, countP_cons, eq_comm]
    · rw [hl, live]
      simp [Task.message]
    · rw [hi]
      simp [Task.pushes, isCallback]
    · rw [hi, catches]
      simp [Task.pushes, isChainCatch]

end Link

/-! ### The batch -/

/-- The callbacks of a batch at the end of a chain are jobs of their own. -/
theorem callback_plain {m : Moment} {x : Message}
    (h : (c.toPendingBatch catch_).callback m = some x) : x.plain := by
  have hmap : ∀ {o : Option Job}, o.map Job.message = some x → x.plain := by
    intro o ho
    obtain ⟨j, -, rfl⟩ := Option.map_eq_some_iff.mp ho
    rfl
  cases m with
  | catch_ =>
    simp only [Options.callback, ChainedBatch.toPendingBatch, Option.or_eq_some_iff] at h
    rcases h with h | ⟨-, h⟩
    · exact hmap h
    · exact hmap h
  | before | progress | then_ | failure | finally_ => exact hmap h

/-- What the callbacks of a report count for. -/
theorem deedTasks_spec (o : Options Message) (deeds : List (Deed Message))
    (hplain : ∀ m x, Deed.push m x ∈ deeds → x.plain) :
    (∀ m, (deeds.map (deedTask 0 o)).countP (Task.pushes (isCallback m)) = deeds.countP (Deed.pushes m)) ∧
    (deeds.map (deedTask 0 o)).countP (Task.pushes isChainCatch) = 0 ∧
    (∀ r, (deeds.map (deedTask 0 o)).countP (Task.pushes (isLink r)) = 0) ∧
    ∀ x ∈ (deeds.map (deedTask 0 o)).filterMap Task.message, x.plain := by
  refine ⟨fun m => ?_, ?_, fun r => ?_, fun x hx => ?_⟩
  · rw [countP_map]
    refine countP_congr fun d _ => ?_
    cases d <;> simp [deedTask, Task.pushes, Deed.pushes, isCallback]
  · rw [countP_eq_zero]
    intro t ht
    obtain ⟨d, -, rfl⟩ := List.mem_map.mp ht
    cases d <;> simp [deedTask, Task.pushes, isChainCatch]
  · rw [countP_eq_zero]
    intro t ht
    obtain ⟨d, hd, rfl⟩ := List.mem_map.mp ht
    cases d with
    | push m x =>
      have hx : ({ x with queue := queueFor o x.queue } : Message).plain := hplain m x hd
      simp [deedTask, Task.pushes, isLink, (remaining_of_plain hx).1]
    | markAsFinished | cancel => simp [deedTask, Task.pushes]
  · obtain ⟨t, ht, hm⟩ := mem_filterMap.mp hx
    obtain ⟨d, hd, rfl⟩ := List.mem_map.mp ht
    cases d with
    | push m y =>
      simp only [deedTask, Task.message, Option.some.injEq] at hm
      rw [← hm]
      exact hplain m y hd
    | markAsFinished | cancel => simp [deedTask, Task.message] at hm

/-- The envelope of a job of the batch. -/
abbrev memberEnvelope (id p : String) : Envelope := { batch := some 0, job := id, body := .raw p }

/-- Once a job has reported, the others that had not are those that have not. -/
theorem owed_snoc {reports : List Report} {l : List String} {id : String} (hnodup : ids.Nodup)
    (h : (id :: l).Perm (ids.filter fun i => !reported reports i)) :
    l.Perm (ids.filter fun i => !reported (reports ++ [⟨id, ok⟩]) i) := by
  have h := (cons_perm_iff_perm_erase.mp h).2
  rw [(hnodup.filter _).erase_eq_filter, filter_filter] at h
  refine h.trans (.of_eq (filter_congr fun i _ => ?_))
  rw [reported_snoc, Bool.not_or, Bool.and_comm, bne, BEq.comm]
  rfl

/-- A job of the batch is delivered and reports. -/
theorem Phase.deliver_member {st : Step} {queue name id p : String} (last : links.getLast? = some st) (payload : st.payload = .batch c)
    (alone : c.options.catch_.isNone ∨ catch_.isNone)
    (ledger : Ledger s links.length 0 (some true)) (d : Dispatched s c catch_ ids b)
    (catches : s.issued isChainCatch = 0) (failed : s.failed = !s.memberReports.all (·.ok))
    (ht : Taken s ⟨queue, name, .wrapped (memberEnvelope id p)⟩ s')
    (hu : u = s'.handled ⟨queue, name, .wrapped (memberEnvelope id p)⟩
      (memberEnvelope id p) ok []) : Phase links catch_ u := by
  obtain ⟨hl, hi, hr, hb⟩ := ht
  have hfresh := d.fresh
  simp only [Chain.fresh, Bool.and_eq_true, decide_eq_true_eq] at hfresh
  obtain ⟨⟨-, hnodup⟩, hempty⟩ := hfresh
  obtain ⟨hlive, hissued⟩ := handled_spec s' ⟨queue, name, .wrapped (memberEnvelope id p)⟩
    (memberEnvelope id p) ok []
  rw [← hu] at hlive hissued
  have hchain : (memberEnvelope id p).chainTasks ok = [] := by cases ok <;> rfl
  have hbatch : reportBatch s'.batches (memberEnvelope id p) ok =
      ([(b.record id ok).1], (b.record id ok).2.map (deedTask 0 b.options)) := by
    rw [hb, d.batches]
    rfl
  rw [hchain, hbatch, nil_append, append_nil] at hlive
  simp only [hchain, hbatch, nil_append, append_nil] at hissued
  have hplain : ∀ m x, Deed.push m x ∈ (b.record id ok).2 → x.plain := fun m x hx =>
    @callback_plain c catch_ m x (by rw [← d.options]; exact (Batch.record_push hx).1)
  obtain ⟨hcall, hcatch, hlink, hmsgs⟩ := deedTasks_spec b.options _ hplain
  have hreports : u.reports = s.reports ++ [(⟨queue, name, .wrapped (memberEnvelope id p)⟩, ok)] := by
    rw [hu, ← hr]
    rfl
  have hmembers : u.memberReports = s.memberReports ++ [⟨id, ok⟩] := by
    rw [memberReports_snoc hreports]
    rfl
  -- The job is one of the batch's that has not reported.
  have howed : (id :: s'.live.filterMap Message.member).Perm (ids.filter fun id => !reported s.memberReports id) :=
    (hl.symm.filterMap Message.member).trans d.owed
  obtain ⟨hid, hnew⟩ := mem_filter.mp (howed.mem_iff.mp mem_cons_self)
  have hnew : reported s.memberReports id = false := by simpa using hnew
  refine @Phase.batch _ _ _ _ _ ids (b.record id ok).1 last payload alone (ledger.same (linkReported_of_none hreports rfl) fun r => ?_)
    ⟨?_, ?_, d.fresh, ?_, ?_, ?_, ?_, ?_, ?_⟩ ?_ ?_
  · rw [hissued, hi, hlink, Nat.add_zero]
  · rw [hu]
    show (reportBatch s'.batches _ ok).1 = _
    rw [hbatch]
  · rw [b.options_record, d.options]
  · rw [hmembers]
    have htidy := d.tracks.toCounted.tidy d.once d.ours hnew ok
    refine (d.tracks.record hnodup hid (by rintro rfl; exact hempty hid) htidy).congr fun m _ => ?_
    rw [hissued, hi, hcall]
  · rw [hissued, hi, hcall, d.before, countP_eq_zero.mpr, Nat.add_zero]
    intro deed hdeed
    cases deed with
    | push =>
      have := (Batch.record_push hdeed).2
      simpa [Deed.pushes] using this
    | markAsFinished | cancel => simp [Deed.pushes]
  · rw [hmembers, map_append, nodup_append]
    refine ⟨d.once, nodup_singleton _, fun x hx y hy => ?_⟩
    rw [map_singleton, mem_singleton] at hy
    rw [hy]
    rintro rfl
    obtain ⟨r, hr, rfl⟩ := List.mem_map.mp hx
    have : reported s.memberReports r.job := any_eq_true.mpr ⟨r, hr, by simp⟩
    rw [hnew] at this
    cases this
  · intro r hr
    rw [hmembers] at hr
    rcases (mem_append.mp hr).imp_right mem_singleton.mp with hr | rfl
    · exact d.ours r hr
    · exact hid
  · intro m hm
    rw [hlive] at hm
    rcases mem_append.mp hm with hm | hm
    · exact d.kinds m (hl.mem_iff.mpr (mem_cons_of_mem _ hm))
    · exact .inl (hmsgs m hm)
  · have hnone : ((b.record id ok).2.map (deedTask 0 b.options) |>.filterMap Task.message).filterMap Message.member = [] := by
      rw [filterMap_eq_nil_iff]
      exact fun m hm => (remaining_of_plain (hmsgs m hm)).2
    rw [hlive, filterMap_append, hnone, append_nil, hmembers]
    exact owed_snoc hnodup howed
  · rw [hissued, hi, catches, hcatch]
  · rw [failed_snoc hreports, failed, hmembers]
    simp [Message.plain]

theorem memberTasks_spec (o : Options Message) :
    ∀ (ids : List String) (jobs : List Job), ids.length = jobs.length →
      ((zipWith (memberTask 0 o) ids jobs).filterMap Task.message).filterMap Message.member = ids ∧
      (∀ m ∈ (zipWith (memberTask 0 o) ids jobs).filterMap Task.message,
        ∃ queue name id p, m = ⟨queue, name, .wrapped (memberEnvelope id p)⟩) ∧
      ∀ P : Reason × Message → Bool, (∀ m, m.remaining = none → P (.member 0, m) = false) →
        (zipWith (memberTask 0 o) ids jobs).countP (Task.pushes P) = 0 := by
  intro ids
  induction ids with
  | nil => intro jobs _; simp
  | cons _ _ ih =>
    intro jobs hlen
    cases jobs with
    | nil => simp at hlen
    | cons j jobs =>
      obtain ⟨hids, hkinds, hcount⟩ := ih jobs (by simpa using hlen)
      refine ⟨?_, fun m hm => ?_, fun P hP => ?_⟩
      · simpa [memberTask, Task.message, Message.member] using hids
      · simp only [zipWith_cons_cons, memberTask, filterMap_cons, Task.message, mem_cons] at hm
        rcases hm with rfl | hm
        · exact ⟨_, _, _, _, rfl⟩
        · exact hkinds m hm
      · rw [zipWith_cons_cons, countP_cons, hcount P hP]
        simp [memberTask, Task.pushes, hP, Message.remaining]

/-- The batch at the end of the chain is dispatched. -/
theorem AtWork.dispatched {cur : Step} (h : AtWork links catch_ cur [] s) (payload : cur.payload = .batch c)
    (hd : c.dispatches) (alone : c.options.catch_.isNone ∨ catch_.isNone)
    (hfresh : fresh ids c.jobs.length)
    (hu : u = State.handled { s with batches := s.batches ++ [(c.handle (linkEnvelope cur [] catch_) s.batches.length ids).1] }
      (linkMessage cur [] catch_) (linkEnvelope cur [] catch_) true
      (c.handle (linkEnvelope cur [] catch_) s.batches.length ids).2) : Phase links catch_ u := by
  obtain ⟨suffix, -, ledger, live, still, catches, fine⟩ := h
  obtain ⟨hr, hb, hl, hi, hm, hf⟩ := linkHandled_spec hu
  have hids := hfresh
  simp only [Chain.fresh, Bool.and_eq_true, decide_eq_true_eq] at hids
  obtain ⟨⟨hlen, _⟩, -⟩ := hids
  have hne : ids ≠ [] := by
    simp only [ChainedBatch.dispatches, Bool.and_eq_true, decide_eq_true_eq] at hd
    rintro rfl
    exact hd.1 (length_eq_zero_iff.mp hlen.symm)
  set o := c.toPendingBatch catch_ with ho
  -- The one callback of a batch that is stored is `Before`.
  set deeds := (o.before.map (Deed.push .before)).toList with hdeeds
  have hhandle : c.handle (linkEnvelope cur [] catch_) s.batches.length ids =
      (.store ids.length o, deeds.map (deedTask 0 o) ++ zipWith (memberTask 0 o) ids c.jobs) := by
    rw [still.batches, hlen, hdeeds, ← Option.toList_map, Option.map_map]
    rfl
  obtain ⟨hdeed, hdeedCatch, hdeedLink, hbefore⟩ := deedTasks_spec o deeds fun m x hx => by
    obtain ⟨y, hy, hxy⟩ := Option.map_eq_some_iff.mp (Option.mem_toList.mp hx)
    cases hxy
    exact @callback_plain c catch_ .before _ hy
  obtain ⟨hmembers, hkinds, hcount⟩ := memberTasks_spec o ids c.jobs hlen
  have hchain : (linkEnvelope cur [] catch_).chainTasks true = [] := rfl
  rw [hhandle, hchain, append_nil] at hl
  simp only [hhandle, hchain, append_nil, countP_append] at hi
  have hlive : State.live { s with batches := s.batches ++ [Batch.store ids.length o] } = [] := live
  rw [hlive, nil_append, filterMap_append] at hl
  have hissued : ∀ P, u.issued P = s.issued P + ((deeds.map (deedTask 0 o)).countP (Task.pushes P) +
      (zipWith (memberTask 0 o) ids c.jobs).countP (Task.pushes P)) := hi
  have hlink : ∀ r, u.issued (isLink r) = s.issued (isLink r) := by
    intro r
    rw [hissued, hdeedLink, hcount (isLink r) fun m hm => by simp [isLink, hm], Nat.add_zero]
  have hcall : ∀ m, u.issued (isCallback m) = if m = .before then o.before.toList.length else 0 := by
    intro m
    rw [hissued, still.callbacks, hdeed, hcount (isCallback m) fun m hm => by simp [isCallback]]
    cases hbo : o.before <;> simp [hdeeds, hbo, Deed.pushes, countP_cons, eq_comm]
  have hnil : u.memberReports = [] := hm.trans still.members
  obtain ⟨_, rfl⟩ := suffix
  refine @Phase.batch _ _ _ cur c ids (.store ids.length o) (by simp) payload alone
    (ledger.settle (by simp [linkMessage, Message.remaining]) hr hlink)
    ⟨?_, rfl, hfresh, ?_, ?_, by rw [hnil]; exact nodup_nil, by simp [hnil], fun m hmem => ?_, ?_⟩ ?_ ?_
  · rw [hb, hhandle, still.batches]
    rfl
  · rw [hnil]
    refine (tracks_store o hne).congr fun m hm => ?_
    rw [hcall, if_neg hm]
  · rw [hcall, if_pos rfl]
    show (c.options.before.map Job.message).toList.length = _
    cases c.options.before <;> rfl
  · rw [hl] at hmem
    rcases mem_append.mp hmem with hmem | hmem
    · exact .inl (hbefore m hmem)
    · exact .inr (hkinds m hmem)
  · rw [hl, filterMap_append, hmembers, hnil, filterMap_eq_nil_iff.mpr fun m hm => (remaining_of_plain (hbefore m hm)).2]
    simp [reported]
  · rw [hissued, catches, hdeedCatch, hcount isChainCatch fun m hm => by simp [isChainCatch]]
  · rw [hf, hnil]
    show (s.failed || false) = false
    rw [fine, Bool.or_false]

/-- A link is delivered. -/
theorem AtWork.deliver {cur : Step} {rest : List Step} (h : AtWork links catch_ cur rest s)
    (hu : s.deliver (linkMessage cur rest catch_) ok ids = some u) : Phase links catch_ u := by
  simp only [State.deliver, linkMessage] at hu
  split at hu
  · next p hp =>
    have hu := (Option.some.inj hu).symm
    cases ok with
    | true => exact h.succeeded ⟨p, hp⟩ hu
    | false => exact h.failed hu
  · next c hc =>
    split at hu
    · next hd =>
      split at hu
      · next hfresh =>
        have hu := (Option.some.inj hu).symm
        have hfit := h.fit
        rw [fits, hc] at hfit
        replace hfit := (Bool.and_eq_true_iff.mp hfit).1
        simp only [hd, Bool.not_true, Bool.false_or, Bool.and_eq_true, decide_eq_true_eq, Bool.or_eq_true] at hfit
        obtain ⟨rfl, alone⟩ := hfit
        exact h.dispatched hc hd alone hfresh hu
      · cases hu
    · exact h.failed (Option.some.inj hu).symm

theorem Phase.deliver (h : Phase links catch_ s) (hu : step s (.deliver i ok ids) = some u) : Phase links catch_ u := by
  obtain ⟨m, s', ht, hu⟩ := deliver_spec hu
  by_cases hm : m.plain
  · exact h.deliver_callback hm ht hu
  · obtain ⟨hl, hi, hr, hb⟩ := ht
    have hnot : ¬(∀ x ∈ s.live, x.plain) := fun hall => hm (hall m (hl.mem_iff.mpr mem_cons_self))
    cases h with
    | running suffix fit ledger live still catches fine =>
      have hone := hl.symm.trans live
      have hempty : s'.live = [] := by
        have := hone.length_eq
        simpa using this
      rw [hempty] at hone
      have hm : m = _ := singleton_perm_singleton.mp hone
      subst hm
      exact AtWork.deliver ⟨suffix, fit, ledger.same (fun r ok => by rw [State.linkReported, hr]; rfl) fun r => hi _, hempty,
        still.same hb (by rw [State.memberReports, hr]; rfl) hi, (hi _).trans catches,
        by rw [State.failed, hr]; exact fine⟩ hu
    | stopped _ live | finished _ live =>
      exact absurd live hnot
    | batch last payload alone ledger d catches failed =>
      rcases d.kinds m (hl.mem_iff.mpr mem_cons_self) with hplain | ⟨_, _, _, p, rfl⟩
      · exact absurd hplain hm
      · exact Phase.deliver_member last payload alone ledger d catches failed ⟨hl, hi, hr, hb⟩ (Option.some.inj hu).symm

theorem phase_dispatch {c : Chain} {s : State} (h : c.dispatch = some s) (hfit : fits c.catchJob c.links) :
    Phase c.links c.catchJob s := by
  unfold Chain.dispatch at h
  split at h
  · cases h
  · next first rest hlinks =>
    cases h
    rw [hlinks] at hfit ⊢
    refine .running (suffix_refl _) hfit ⟨fun r => ?_, fun r => ?_, by simp [State.linkReported]⟩
      (by simp [State.live]) ⟨rfl, fun m => by simp [State.issued], rfl⟩ (by simp [State.issued]) rfl
    · simp only [State.issued, countP_cons, countP_nil, isLink, linkMessage, Message.remaining, if_true,
      Option.some.injEq, decide_eq_true_eq, map_nil, sum_nil, length_cons]
      split <;> split <;> omega
    · simp only [State.linkReported, any_nil, Bool.false_eq_true, length_cons, reduceCtorEq, and_false,
        or_false, false_iff]
      omega

theorem phase_of_reach {c : Chain} {s₀ s : State} (h₀ : c.dispatch = some s₀) (hfit : fits c.catchJob c.links)
    (h : Reach step (fun _ _ => true) s₀ s) : Phase c.links c.catchJob s := by
  refine h.invariant (phase_dispatch h₀ hfit) fun t a u ht _ hu => ?_
  cases a with
  | deliver => exact ht.deliver hu
  | go => exact ht.go hu

/-! ### The order of the links -/

def State.linkPushes (s : State) (r : Nat) : Nat := s.pushed.countP (isLink r)

/-- How often the chain's `Catch` was pushed: by the report of a link, or by a batch that has taken it. -/
def State.catchPushes (s : State) : Nat := s.pushed.countP isChainCatch + s.pushed.countP (isCallback .catch_)

def State.callbackPushes (s : State) (m : Moment) : Nat := s.pushed.countP (isCallback m)

theorem State.pushed_le (s : State) (P : Reason × Message → Bool) : s.pushed.countP P ≤ s.issued P :=
  Nat.le_add_right _ _

theorem State.pushed_of_idle (h : s.idle) (P : Reason × Message → Bool) :
    s.pushed.countP P = s.issued P := by
  have : (s.todo.map (·.countP (Task.pushes P))).sum = 0 := by
    rw [List.sum_eq_zero_iff_forall_eq_nat]
    intro n hn
    obtain ⟨ts, hts, rfl⟩ := List.mem_map.mp hn
    have := List.all_eq_true.mp h ts hts
    rw [of_decide_eq_true this]
    rfl
  rw [State.issued, this, Nat.add_zero]

/-- The callbacks that a batch declared for itself were pushed when their moment came: its jobs have
reported once each. -/
def State.OwnCallbacks (s : State) (b : ChainedBatch) : Prop :=
  (b.options.before.isSome = true → s.callbackPushes .before = 1) ∧
  (b.options.progress.isSome = true →
    s.callbackPushes .progress = s.memberReports.countP fun r => r.ok || b.options.allowFailures) ∧
  (b.options.failure.isSome = true → b.options.allowFailures = true →
    s.callbackPushes .failure = s.memberReports.countP (!·.ok)) ∧
  (b.options.catch_.isSome = true → s.memberReports.all (·.ok) = false → s.callbackPushes .catch_ = 1) ∧
  (s.memberReports.length = b.jobs.length →
    (b.options.finally_.isSome = true → s.callbackPushes .finally_ = 1) ∧
    (b.options.then_.isSome = true → s.memberReports.all (·.ok) = true → s.callbackPushes .then_ = 1))

theorem Dispatched.all_reported (d : Dispatched s c catch_ ids b) (h : s.memberReports.length = c.jobs.length) :
    ids.all (reported s.memberReports) := by
  have hfresh := d.fresh
  simp only [Chain.fresh, Bool.and_eq_true, decide_eq_true_eq] at hfresh
  have hsub : s.memberReports.map (·.job) ⊆ ids := by
    intro x hx
    obtain ⟨r, hr, rfl⟩ := List.mem_map.mp hx
    exact d.ours r hr
  have hperm := (subperm_of_subset d.once hsub).perm_of_length_le (by simp [h, hfresh.1.1])
  rw [all_eq_true]
  intro _ hid
  obtain ⟨r, hr, he⟩ := List.mem_map.mp (hperm.mem_iff.mpr hid)
  exact any_eq_true.mpr ⟨r, hr, by simpa using he⟩

theorem Dispatched.own (d : Dispatched s c catch_ ids b) (hidle : s.idle) : s.OwnCallbacks c := by
  have hcall : ∀ m, s.callbackPushes m = s.issued (isCallback m) := fun m => State.pushed_of_idle hidle _
  have ht := d.tracks
  have hsome : ∀ {o : Option Job}, o.isSome → (o.map Job.message).isSome := by
    intro o ho
    simpa using ho
  refine ⟨fun h => ?_, fun h => ?_, fun h ha => ?_, fun h hf => ?_, fun hall => ⟨fun h => ?_, fun h hok => ?_⟩⟩
  · rw [hcall, d.before]
    obtain ⟨j, hj⟩ := Option.isSome_iff_exists.mp h
    rw [hj]
    rfl
  · rw [hcall, ht.progress, if_pos (by rw [d.options]; exact hsome h), d.options]
    rfl
  · rw [hcall, ht.failure, if_pos (by rw [d.options]; exact ⟨hsome h, ha⟩)]
  · rw [hcall, ht.catch_, if_pos]
    rw [d.options]
    refine ⟨?_, hf⟩
    show ((c.options.catch_.map Job.message).or (catch_.map Job.message)).isSome
    rw [Option.isSome_or, hsome h, Bool.true_or]
  · rw [hcall, ht.finally_, if_pos]
    rw [d.options]
    exact ⟨hsome h, d.all_reported hall⟩
  · rw [hcall, ht.then_, if_pos]
    rw [d.options]
    refine ⟨hsome h, all_eq_true.mpr fun id hid => ?_⟩
    obtain ⟨r, hr, he⟩ := any_eq_true.mp (List.all_eq_true.mp (d.all_reported hall) id hid)
    exact any_eq_true.mpr ⟨r, hr, by rw [he, List.all_eq_true.mp hok r hr]; rfl⟩

/-- How far a chain is, whatever its phase. -/
theorem Phase.ledger (h : Phase links catch_ s) :
    ∃ front outcome, Ledger s links.length front outcome ∧ (outcome = some true → front = 0) := by
  cases h with
  | running _ _ ledger | stopped ledger =>
    exact ⟨_, _, ledger, nofun⟩
  | finished ledger | batch _ _ _ ledger =>
    exact ⟨_, _, ledger, fun _ => rfl⟩

/-- How often the chain's `Catch` is issued. -/
theorem Phase.catches (h : Phase links catch_ s) (hc : catch_.isSome) :
    s.issued isChainCatch + s.issued (isCallback .catch_) = if s.failed then 1 else 0 := by
  cases h with
  | running _ _ _ _ still catches fine | finished _ _ still catches fine =>
    rw [catches, still.callbacks, fine]; rfl
  | stopped _ _ still catches failed =>
    obtain ⟨j, hj⟩ := Option.isSome_iff_exists.mp hc
    rw [catches, still.callbacks, failed, hj]
    rfl
  | batch _ _ _ _ d catches failed =>
    have hsome : ((‹ChainedBatch›.toPendingBatch catch_).catch_).isSome := by
      obtain ⟨j, hj⟩ := Option.isSome_iff_exists.mp hc
      simp [ChainedBatch.toPendingBatch, hj]
    rw [catches, d.tracks.catch_, failed, d.options, hsome]
    cases s.memberReports.all (·.ok) <;> rfl

/-- **A chain runs its links in order**, when a batch stands only at its end: every link is pushed at
most once, and after the one before it has succeeded; it is pushed when that one has; after a link
that has failed none is; `Catch` is pushed once if something has failed and else not; and the
callbacks of the batch fire. -/
theorem links_in_order {c : Chain} {s₀ s : State} (h₀ : c.dispatch = some s₀)
    (hfit : fits c.catchJob c.links = true) (h : Reach step (fun _ _ => true) s₀ s) :
    (∀ r, s.linkPushes r ≤ 1) ∧
    (∀ r, r + 1 < c.links.length → 0 < s.linkPushes r → s.linkReported (r + 1) true = true) ∧
    (s.idle = true → ∀ r, r + 1 < c.links.length → s.linkReported (r + 1) true = true → s.linkPushes r = 1) ∧
    (∀ r r', s.linkReported r false = true → r' < r → s.linkPushes r' = 0) ∧
    (c.catchJob.isSome = true → s.catchPushes ≤ (if s.failed then 1 else 0) ∧
      (s.idle = true → s.catchPushes = if s.failed then 1 else 0)) ∧
    ∀ st b, c.links.getLast? = some st → st.payload = .batch b → b.dispatches = true →
      s.linkReported 0 true = true → s.idle = true → s.OwnCallbacks b := by
  have hp := phase_of_reach h₀ hfit h
  obtain ⟨front, _, ledger, hout⟩ := hp.ledger
  have hle : ∀ r, s.linkPushes r ≤ if front ≤ r ∧ r < c.links.length then 1 else 0 := fun r => by
    rw [← ledger.pushes]
    exact s.pushed_le _
  refine ⟨fun r => ?_, fun r hr hpos => ?_, fun hidle r hr hdone => ?_, fun r r' hstop hlt => ?_, fun hc => ⟨?_, fun hidle => ?_⟩,
    fun st b hst hb hd hdone hidle => ?_⟩
  · have := hle r
    split at this <;> omega
  · have := hle r
    split at this
    · exact (ledger.done (r + 1)).mpr (.inl ⟨by omega, hr⟩)
    · omega
  · rw [State.linkPushes, State.pushed_of_idle hidle, ledger.pushes, if_pos]
    rcases (ledger.done (r + 1)).mp hdone with hx | ⟨hx, ho⟩
    · omega
    · have := hout ho
      omega
  · obtain ⟨rfl, -⟩ := (ledger.stopped r).mp hstop
    have := hle r'
    rw [if_neg (by omega)] at this
    omega
  · rw [← hp.catches hc]
    exact Nat.add_le_add (s.pushed_le _) (s.pushed_le _)
  · rw [State.catchPushes, State.pushed_of_idle hidle, State.pushed_of_idle hidle, hp.catches hc]
  · cases hp with
    | running _ _ ledger | stopped ledger =>
      simpa using (ledger.done 0).mp hdone
    | finished _ _ _ _ _ last =>
      rw [last st b hst hb] at hd
      cases hd
    | batch last payload _ _ d =>
      rw [hst] at last
      cases last
      rw [hb] at payload
      cases payload
      exact d.own hidle

/-- A batch of these jobs with callbacks of its own. -/
def rows (jobs : List Job) (catch_ : Option Job) : ChainedBatch :=
  { name := "rows", jobs, options := { then_ := some { name := "sum" }, finally_ := some { name := "tidy" }, catch_ } }

/-- A job, and then a batch, with a `Catch` for the whole chain. -/
def jobThenBatch : Chain :=
  { jobs := [{ name := "a", payload := .raw "" }, (rows [{ name := "r1" }, { name := "r2" }] none).step]
    catch_ := some { name := "oops" } }

/-- The job and the two jobs of the batch succeed, and the batch's own callbacks fire. -/
theorem links_in_order_batch_last : ∃ s₀ s, jobThenBatch.dispatch = some s₀ ∧
    Reach step (fun _ _ => true) s₀ s ∧ s.linkPushes 0 = 1 ∧ s.callbackPushes .finally_ = 1 := by
  obtain ⟨s₀, h₀⟩ : ∃ s₀, jobThenBatch.dispatch = some s₀ := ⟨_, rfl⟩
  obtain ⟨s, hrun, hp⟩ : ∃ s : State, Reach step (fun _ _ => true) s₀ s ∧
      s.idle ∧ s.linkReported 1 true ∧ s.linkReported 0 true ∧ s.memberReports.length = 2 := by
    cases h₀
    exact Run.exists_reach [.deliver 0 true [], .go 0, .deliver 0 true ["x", "y"], .go 1, .go 1,
      .deliver 0 true [], .deliver 0 true [], .go 3, .go 3, .go 3] (by decide +kernel)
  obtain ⟨hidle, hfirst, hlast, hlen⟩ := hp
  obtain ⟨-, -, hnext, -, -, hown⟩ := links_in_order h₀ (by decide +kernel) hrun
  refine ⟨s₀, s, h₀, hrun, hnext hidle 0 (by decide) hfirst, ?_⟩
  exact ((hown _ _ rfl rfl (by decide) hlast hidle).2.2.2.2 hlen).1 rfl

/-- A run of a chain that can be dispatched, found by running a list of actions. -/
theorem exists_dispatched {chain : Chain} {P : State → Prop} [DecidablePred P] (as : List Act)
    (h : (chain.dispatch.bind (Run.follow step (fun _ _ => true) · as)).any (P ·)) :
    ∃ s₀ s, chain.dispatch = some s₀ ∧ Reach step (fun _ _ => true) s₀ s ∧ P s := by
  cases hd : chain.dispatch with
  | none =>
    rw [hd] at h
    cases h
  | some s₀ =>
    rw [hd] at h
    exact ⟨s₀, (Run.exists_reach as h).imp fun _ hs => ⟨rfl, hs⟩⟩

/-- A batch, and then a job. -/
def batchThenJob : Chain :=
  { jobs := [(rows [{ name := "r1" }] none).step, { name := "z", payload := .raw "" }] }

/-- A batch with a `Catch` of its own in a chain that has one. -/
def batchWithCatch : Chain :=
  { jobs := [(rows [{ name := "r1" }] (some { name := "mine" })).step], catch_ := some { name := "oops" } }

/-- **A link is pushed twice, and a `Catch` not at all.**  The link after a batch is pushed before
any job of the batch has reported and again at the batch's end, when the batch's own `Finally` is
not; and the chain's `Catch` is not pushed when a job of a batch with its own fails. -/
theorem batch_link_doubles_next :
    (∃ s₀ s, batchThenJob.dispatch = some s₀ ∧ Reach step (fun _ _ => true) s₀ s ∧
      s.linkPushes 0 = 1 ∧ s.memberReports = []) ∧
    (∃ s₀ s, batchThenJob.dispatch = some s₀ ∧ Reach step (fun _ _ => true) s₀ s ∧
      s.idle = true ∧ s.linkPushes 0 = 2 ∧ s.memberReports = [⟨"x", true⟩] ∧ ∀ x ∈ s.pushed, x.2.name ≠ "tidy") ∧
    ∃ s₀ s, batchWithCatch.dispatch = some s₀ ∧ Reach step (fun _ _ => true) s₀ s ∧
      s.idle = true ∧ s.failed = true ∧ ∀ x ∈ s.pushed, x.2.name ≠ "oops" := by
  refine ⟨?_, ?_, ?_⟩
  · exact exists_dispatched [.deliver 0 true ["x"], .go 0, .go 0] (by decide +kernel)
  · exact exists_dispatched [.deliver 0 true ["x"], .go 0, .go 0, .deliver 0 true [], .go 1, .go 1, .go 1]
      (by decide +kernel)
  · exact exists_dispatched [.deliver 0 true ["x"], .go 0, .deliver 0 false [], .go 1, .go 1, .go 1]
      (by decide +kernel)

end Hesape.Bus.Chain
